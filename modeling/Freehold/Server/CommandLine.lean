import Freehold.Discovery.Announcements
import Freehold.Foundation.Decimal
import Freehold.Mail.Replies
import Freehold.Server.Shard

/-!
# The configuration of the server (`mpcauth_server.cpp`, `logging.h`)

`main` reads the command line, asks the environment for what the command line leaves at its
default, checks the outcome and expands the shard. Options with a value, options without one and
the five words of the legacy form may stand in any order, and a word goes to the first of five
fields that looks unset.

## Main results

- `parseArgs_words`: the words of a command line are read as the items they were made from.
- `Spells.foldl_apply_eq`: items that agree with a configuration and cover it make it, in any order.
- `startup_of_spells`: when `main` starts with the configuration that the command line spells.
-/

namespace Freehold.Server.CommandLine

open Freehold.Mail (atoi isSpace strtol digitsValue)

/-! ## The arguments -/

inductive LogLevel where
  | trace | debug | info | warn | error
  deriving DecidableEq

/-- `parse_log_level`, of a string that is there. -/
def parseLogLevel (s : List Char) : LogLevel :=
  if s = "TRACE".toList ∨ s = "trace".toList then .trace
  else if s = "DEBUG".toList ∨ s = "debug".toList then .debug
  else if s = "INFO".toList ∨ s = "info".toList then .info
  else if s = "WARN".toList ∨ s = "warn".toList then .warn
  else if s = "ERROR".toList ∨ s = "error".toList then .error
  else .info

/-- `log_level_str`. -/
def logLevelStr : LogLevel → List Char
  | .trace => "TRACE".toList
  | .debug => "DEBUG".toList
  | .info => "INFO".toList
  | .warn => "WARN".toList
  | .error => "ERROR".toList

/-- `CLIArgs`. -/
structure CLIArgs where
  party : ℤ := 0
  port : ℤ := 0
  circuitFile : List Char := []
  shardHex : List Char := []
  remoteHost : List Char := "127.0.0.1".toList
  relayHost : List Char := "relay.stare.network".toList
  relayPort : ℤ := 9999
  discoveryPort : ℤ := 5880
  forwarderPort : ℤ := 5870
  noRelay : Bool := false
  noForwarder : Bool := false
  logLevel : LogLevel := .info
  smtpHost : List Char := []
  smtpPort : ℤ := 25
  emailFrom : List Char := "noreply@freehold.local".toList
  emailTo : List Char := []
  smtpUser : List Char := []
  smtpPass : List Char := []
  petitionRef : List Char := "DEMO-001".toList
  noStarttls : Bool := false
  deriving DecidableEq

/-- The options with a value. -/
inductive Setting where
  | party | port | circuit | shard | remote | relay | discoveryPort | forwarderPort
  | smtpHost | smtpPort | emailFrom | emailTo | smtpUser | smtpPass | petitionRef | logLevel
  deriving DecidableEq

def Setting.name : Setting → List Char
  | .party => "--party".toList
  | .port => "--port".toList
  | .circuit => "--circuit".toList
  | .shard => "--shard".toList
  | .remote => "--remote".toList
  | .relay => "--relay".toList
  | .discoveryPort => "--discovery-port".toList
  | .forwarderPort => "--forwarder-port".toList
  | .smtpHost => "--smtp-host".toList
  | .smtpPort => "--smtp-port".toList
  | .emailFrom => "--email-from".toList
  | .emailTo => "--email-to".toList
  | .smtpUser => "--smtp-user".toList
  | .smtpPass => "--smtp-pass".toList
  | .petitionRef => "--petition-ref".toList
  | .logLevel => "--log-level".toList

/-- What stands before and behind the colon that `rfind(':')` finds. -/
def rfindColon : List Char → Option (List Char × List Char)
  | [] => none
  | c :: rest =>
    match rfindColon rest with
    | some (before, behind) => some (c :: before, behind)
    | none => if c = ':' then some ([], rest) else none

/-- What an option with this value does. -/
def Setting.read (args : CLIArgs) (value : List Char) : Setting → CLIArgs
  | .party => { args with party := atoi value }
  | .port => { args with port := atoi value }
  | .circuit => { args with circuitFile := value }
  | .shard => { args with shardHex := value }
  | .remote => { args with remoteHost := value }
  | .relay =>
    match rfindColon value with
    | some (before, behind) => { args with relayHost := before, relayPort := atoi behind }
    | none => { args with relayHost := value }
  | .discoveryPort => { args with discoveryPort := atoi value }
  | .forwarderPort => { args with forwarderPort := atoi value }
  | .smtpHost => { args with smtpHost := value }
  | .smtpPort => { args with smtpPort := atoi value }
  | .emailFrom => { args with emailFrom := value }
  | .emailTo => { args with emailTo := value }
  | .smtpUser => { args with smtpUser := value }
  | .smtpPass => { args with smtpPass := value }
  | .petitionRef => { args with petitionRef := value }
  | .logLevel => { args with logLevel := parseLogLevel value }

/-- The option with a value that has this name. -/
def Setting.ofName (arg : List Char) : Option Setting :=
  [.party, .port, .circuit, .shard, .remote, .relay, .discoveryPort, .forwarderPort, .smtpHost,
    .smtpPort, .emailFrom, .emailTo, .smtpUser, .smtpPass, .petitionRef, .logLevel].find?
    fun setting : Setting => setting.name = arg

/-- The options without a value, but for those that ask for help. -/
inductive Flag where
  | noRelay | noForwarder | noStarttls | quiet | verbose
  deriving DecidableEq

def Flag.name : Flag → List Char
  | .noRelay => "--no-relay".toList
  | .noForwarder => "--no-forwarder".toList
  | .noStarttls => "--no-starttls".toList
  | .quiet => "--quiet".toList
  | .verbose => "--verbose".toList

def Flag.set (args : CLIArgs) : Flag → CLIArgs
  | .noRelay => { args with noRelay := true }
  | .noForwarder => { args with noForwarder := true }
  | .noStarttls => { args with noStarttls := true }
  | .quiet => { args with logLevel := .error }
  | .verbose => { args with logLevel := .trace }

def Flag.ofName (arg : List Char) : Option Flag :=
  [.noRelay, .noForwarder, .noStarttls, .quiet, .verbose].find? fun flag : Flag => flag.name = arg

def isHelp (arg : List Char) : Bool := arg = "--help".toList || arg = "-h".toList

/-- Why `main` returns 1. -/
inductive Refusal where
  | help
  | unknownArgument (arg : List Char)
  | party
  | port
  | circuitFile (path : List Char)
  | shard
  | shardHex
  deriving DecidableEq

/-- `isdigit(arg[0])`. -/
def startsWithDigit (arg : List Char) : Bool := (arg.headD '\x00').isDigit

/-- A word of the legacy form. -/
def positional (args : CLIArgs) (arg : List Char) : Except Refusal CLIArgs :=
  if args.party = 0 ∧ startsWithDigit arg then .ok { args with party := atoi arg }
  else if args.port = 0 ∧ startsWithDigit arg then .ok { args with port := atoi arg }
  else if args.circuitFile = [] then .ok { args with circuitFile := arg }
  else if args.shardHex = [] then .ok { args with shardHex := arg }
  else if args.remoteHost = "127.0.0.1".toList then .ok { args with remoteHost := arg }
  else .error (.unknownArgument arg)

/-- An argument that is no option with a value, or is the last one. -/
def lone (args : CLIArgs) (arg : List Char) : Except Refusal CLIArgs :=
  match Flag.ofName arg with
  | some flag => .ok (flag.set args)
  | none => if isHelp arg then .error .help else positional args arg

/-- `parse_args`, of what stands behind the name of the program. -/
def parseArgs (args : CLIArgs) : List (List Char) → Except Refusal CLIArgs
  | [] => .ok args
  | [arg] => lone args arg
  | arg :: value :: rest =>
    match Setting.ofName arg with
    | some setting => parseArgs (setting.read args value) rest
    | none => do
      let args ← lone args arg
      parseArgs args (value :: rest)

/-- `validate_args`. -/
def validateArgs (fileExists : List Char → Bool) (args : CLIArgs) : Except Refusal Unit :=
  if args.party ≠ 1 ∧ args.party ≠ 2 then .error .party
  else if args.port < 1 ∨ 65535 < args.port then .error .port
  else if args.circuitFile = [] ∨ fileExists args.circuitFile = false then
    .error (.circuitFile args.circuitFile)
  else if validShardHex args.shardHex = false then .error .shard
  else .ok ()

/-- A setting that is still `unset` is taken from the environment, if it is there. -/
def orEnv {α : Type} [DecidableEq α] (getenv : String → Option String) (name : String) (unset : α)
    (read : List Char → α) (current : α) : α :=
  if current = unset then
    match getenv name with
    | some v => read v.toList
    | none => current
  else current

/-- The fallbacks to the environment for the settings of the e-mail. -/
def withEnvironment (getenv : String → Option String) (args : CLIArgs) : CLIArgs :=
  { args with
    smtpHost := orEnv getenv "FREEHOLD_SMTP_HOST" [] id args.smtpHost
    smtpPort := orEnv getenv "FREEHOLD_SMTP_PORT" 25 atoi args.smtpPort
    emailFrom := orEnv getenv "FREEHOLD_EMAIL_FROM" "noreply@freehold.local".toList id
      args.emailFrom
    emailTo := orEnv getenv "FREEHOLD_EMAIL_TO" [] id args.emailTo
    smtpUser := orEnv getenv "FREEHOLD_SMTP_USER" [] id args.smtpUser
    smtpPass := orEnv getenv "FREEHOLD_SMTP_PASS" [] id args.smtpPass }

/-- The checks of the arguments, and the bits of the shard. -/
def checked (fileExists : List Char → Bool) (args : CLIArgs) :
    Except Refusal (CLIArgs × List Bool) := do
  validateArgs fileExists args
  match parseShard args.shardHex with
  | some shardBits => pure (args, shardBits)
  | none => throw .shardHex

/-- What `main` has before it loads the nullifier database: the arguments and the shard's bits. -/
def startup (fileExists : List Char → Bool) (getenv : String → Option String)
    (argv : List (List Char)) : Except Refusal (CLIArgs × List Bool) := do
  let args ← parseArgs {} argv
  checked fileExists (withEnvironment getenv args)

/-! ## Command lines -/

/-- An option with its value, a word of the legacy form in its place, or an option without a
value. -/
inductive Item where
  | named (setting : Setting) (value : List Char)
  | bare (setting : Setting) (value : List Char)
  | flag (option : Flag)

def Item.words : Item → List (List Char)
  | .named setting value => [setting.name, value]
  | .bare _ value => [value]
  | .flag option => [option.name]

def Item.apply (args : CLIArgs) : Item → CLIArgs
  | .named setting value | .bare setting value => setting.read args value
  | .flag option => option.set args

/-- The setting that a word of the legacy form is for. -/
def Item.bare? : Item → Option Setting
  | .bare setting _ => some setting
  | _ => none

inductive Field where
  | party | port | circuitFile | shardHex | remoteHost | relayHost | relayPort | discoveryPort
  | forwarderPort | noRelay | noForwarder | logLevel | smtpHost | smtpPort | emailFrom | emailTo
  | smtpUser | smtpPass | petitionRef | noStarttls
  deriving DecidableEq

abbrev Field.Value : Field → Type
  | .party | .port | .relayPort | .discoveryPort | .forwarderPort | .smtpPort => ℤ
  | .noRelay | .noForwarder | .noStarttls => Bool
  | .logLevel => LogLevel
  | _ => List Char

def Field.get : (f : Field) → CLIArgs → f.Value
  | .party => CLIArgs.party
  | .port => CLIArgs.port
  | .circuitFile => CLIArgs.circuitFile
  | .shardHex => CLIArgs.shardHex
  | .remoteHost => CLIArgs.remoteHost
  | .relayHost => CLIArgs.relayHost
  | .relayPort => CLIArgs.relayPort
  | .discoveryPort => CLIArgs.discoveryPort
  | .forwarderPort => CLIArgs.forwarderPort
  | .noRelay => CLIArgs.noRelay
  | .noForwarder => CLIArgs.noForwarder
  | .logLevel => CLIArgs.logLevel
  | .smtpHost => CLIArgs.smtpHost
  | .smtpPort => CLIArgs.smtpPort
  | .emailFrom => CLIArgs.emailFrom
  | .emailTo => CLIArgs.emailTo
  | .smtpUser => CLIArgs.smtpUser
  | .smtpPass => CLIArgs.smtpPass
  | .petitionRef => CLIArgs.petitionRef
  | .noStarttls => CLIArgs.noStarttls

/-- The field of a setting; that of `--relay` is the host. -/
def Setting.field : Setting → Field
  | .party => .party
  | .port => .port
  | .circuit => .circuitFile
  | .shard => .shardHex
  | .remote => .remoteHost
  | .relay => .relayHost
  | .discoveryPort => .discoveryPort
  | .forwarderPort => .forwarderPort
  | .smtpHost => .smtpHost
  | .smtpPort => .smtpPort
  | .emailFrom => .emailFrom
  | .emailTo => .emailTo
  | .smtpUser => .smtpUser
  | .smtpPass => .smtpPass
  | .petitionRef => .petitionRef
  | .logLevel => .logLevel

def Flag.field : Flag → Field
  | .noRelay => .noRelay
  | .noForwarder => .noForwarder
  | .noStarttls => .noStarttls
  | .quiet | .verbose => .logLevel

/-- The fields that an item sets. The port of the relay is set with a colon. -/
def Item.Sets (f : Field) : Item → Prop
  | .named setting value | .bare setting value =>
    f = setting.field ∨ setting = .relay ∧ f = .relayPort ∧ (rfindColon value).isSome
  | .flag option => f = option.field

instance (f : Field) : DecidablePred (Item.Sets f)
  | .named _ _ | .bare _ _ => inferInstanceAs (Decidable (_ ∨ _))
  | .flag _ => inferInstanceAs (Decidable (_ = _))

/-- The words of the legacy form, in their order. -/
def legacy : List Setting := [.party, .port, .circuit, .shard, .remote]

/-- A word that `parse_args` takes for no option. -/
structure IsWord (arg : List Char) : Prop where
  setting : Setting.ofName arg = none
  flag : Flag.ofName arg = none
  help : isHelp arg = false

/-- Each item agrees with the configuration, and each word of the legacy form can be told from an
option. What a word is for is not given by an option too. -/
structure Agree (a : CLIArgs) (items : List Item) : Prop where
  agrees : ∀ item ∈ items, item.apply a = a
  isWord : ∀ setting value, .bare setting value ∈ items → IsWord value
  digit : ∀ setting value, .bare setting value ∈ items → setting = .party ∨ setting = .port →
    startsWithDigit value
  once : ∀ setting value value', .bare setting value ∈ items → .named setting value' ∉ items

/-- The items spell the configuration: together they leave out only what is at its default, and
the words of the legacy form are its first ones, with the options in any order between them. -/
structure Spells (a : CLIArgs) (items : List Item) : Prop extends Agree a items where
  covers : ∀ f : Field, f.get {} = f.get a ∨ ∃ item ∈ items, item.Sets f
  inOrder : items.filterMap Item.bare? <+: legacy

/-- What `validate_args` asks. -/
structure Valid (fileExists : List Char → Bool) (a : CLIArgs) : Prop where
  party : a.party = 1 ∨ a.party = 2
  port : 1 ≤ a.port ∧ a.port ≤ 65535
  circuitFile : a.circuitFile ≠ [] ∧ fileExists a.circuitFile = true
  shardHex : validShardHex a.shardHex = true

/-- The environment has nothing else for a setting that is at its default. -/
structure Undisturbed (getenv : String → Option String) (a : CLIArgs) : Prop where
  smtpHost : a.smtpHost = [] → ∀ v ∈ getenv "FREEHOLD_SMTP_HOST", v.toList = []
  smtpPort : a.smtpPort = 25 → ∀ v ∈ getenv "FREEHOLD_SMTP_PORT", atoi v.toList = 25
  emailFrom : a.emailFrom = "noreply@freehold.local".toList →
    ∀ v ∈ getenv "FREEHOLD_EMAIL_FROM", v.toList = "noreply@freehold.local".toList
  emailTo : a.emailTo = [] → ∀ v ∈ getenv "FREEHOLD_EMAIL_TO", v.toList = []
  smtpUser : a.smtpUser = [] → ∀ v ∈ getenv "FREEHOLD_SMTP_USER", v.toList = []
  smtpPass : a.smtpPass = [] → ∀ v ∈ getenv "FREEHOLD_SMTP_PASS", v.toList = []

variable {fileExists : List Char → Bool} {getenv : String → Option String} {a x y : CLIArgs}
  {items : List Item} {item : Item} {f : Field}

theorem ext_get (h : ∀ f : Field, f.get x = f.get y) : x = y := by
  cases x
  cases y
  congr
  exacts [h .party, h .port, h .circuitFile, h .shardHex, h .remoteHost, h .relayHost,
    h .relayPort, h .discoveryPort, h .forwarderPort, h .noRelay, h .noForwarder, h .logLevel,
    h .smtpHost, h .smtpPort, h .emailFrom, h .emailTo, h .smtpUser, h .smtpPass,
    h .petitionRef, h .noStarttls]

/-! ## What an item does -/

/-- Everything else is unchanged. -/
theorem get_apply_of_not_sets (h : ¬item.Sets f) : f.get (item.apply x) = f.get x := by
  cases item with
  | named setting value | bare setting value =>
    obtain ⟨hfield, hport⟩ := not_or.mp h
    show f.get (setting.read x value) = f.get x
    by_cases hrelay : setting = .relay
    · subst hrelay
      rw [Setting.read]
      split
      · next hcolon =>
        have hport : f ≠ .relayPort := fun hf => hport ⟨rfl, hf, by rw [hcolon]; rfl⟩
        cases f <;> first | rfl | contradiction
      · cases f <;> first | rfl | contradiction
    · cases setting <;> first | contradiction | (cases f <;> first | rfl | contradiction)
  | flag option =>
    have hfield : f ≠ option.field := h
    cases option <;> cases f <;> first | rfl | contradiction

/-- What is set does not depend on what was there. -/
theorem get_apply_of_sets (h : item.Sets f) : f.get (item.apply x) = f.get (item.apply y) := by
  cases item with
  | named setting value | bare setting value =>
    show f.get (setting.read x value) = f.get (setting.read y value)
    rcases h with rfl | ⟨rfl, rfl, hcolon⟩
    · by_cases hrelay : setting = .relay
      · subst hrelay
        rw [Setting.read, Setting.read]
        split <;> rfl
      · cases setting <;> first | rfl | contradiction
    · obtain ⟨⟨before, behind⟩, hcolon⟩ := Option.isSome_iff_exists.mp hcolon
      rw [Setting.read, Setting.read, hcolon]
      rfl
  | flag option =>
    cases h
    cases option <;> rfl

theorem get_apply_of_agrees (hagrees : item.apply a = a) (h : f.get x = f.get a ∨ item.Sets f) :
    f.get (item.apply x) = f.get a := by
  by_cases hsets : item.Sets f
  · rw [get_apply_of_sets hsets, hagrees]
  · rw [get_apply_of_not_sets hsets]
    exact h.resolve_right hsets

/-- Items that agree with a configuration and cover it make it, in any order. -/
theorem get_foldl_apply (hagrees : ∀ item ∈ items, item.apply a = a)
    (h : f.get x = f.get a ∨ ∃ item ∈ items, item.Sets f) :
    f.get (items.foldl Item.apply x) = f.get a := by
  induction items generalizing x with
  | nil => exact h.resolve_right (by simp)
  | cons item items ih =>
    obtain ⟨hitem, hitems⟩ := List.forall_mem_cons.mp hagrees
    refine ih hitems ?_
    by_cases hsets : item.Sets f
    · exact .inl (get_apply_of_agrees hitem (.inr hsets))
    · rcases h with h | ⟨other, hother, hf⟩
      · exact .inl (get_apply_of_agrees hitem (.inl h))
      · rcases List.mem_cons.mp hother with rfl | hother
        · exact absurd hf hsets
        · exact .inr ⟨other, hother, hf⟩

theorem Spells.foldl_apply_eq (h : Spells a items) : items.foldl Item.apply {} = a :=
  ext_get fun f => get_foldl_apply h.agrees (h.covers f)

/-! ## Reading a command line -/

theorem Setting.ofName_name (setting : Setting) : Setting.ofName setting.name = some setting := by
  cases setting <;> rfl

theorem Setting.ofName_flag (option : Flag) : Setting.ofName option.name = none := by
  cases option <;> rfl

theorem Flag.ofName_name (option : Flag) : Flag.ofName option.name = some option := by
  cases option <;> rfl

theorem parseArgs_named (x : CLIArgs) (setting : Setting) (value : List Char)
    (rest : List (List Char)) :
    parseArgs x (setting.name :: value :: rest) = parseArgs (setting.read x value) rest := by
  rw [parseArgs, Setting.ofName_name]

theorem parseArgs_lone (x : CLIArgs) {arg : List Char} (h : Setting.ofName arg = none)
    (rest : List (List Char)) :
    parseArgs x (arg :: rest) = (lone x arg).bind fun x => parseArgs x rest := by
  cases rest with
  | nil =>
    rw [parseArgs]
    cases lone x arg <;> rfl
  | cons value rest =>
    rw [parseArgs, h]
    rfl

theorem parseArgs_flag (x : CLIArgs) (option : Flag) (rest : List (List Char)) :
    parseArgs x (option.name :: rest) = parseArgs (option.set x) rest := by
  rw [parseArgs_lone x (Setting.ofName_flag option), lone, Flag.ofName_name]
  rfl

theorem parseArgs_word (x : CLIArgs) {arg : List Char} (h : IsWord arg)
    (rest : List (List Char)) :
    parseArgs x (arg :: rest) = (positional x arg).bind fun x => parseArgs x rest := by
  rw [parseArgs_lone x h.setting, lone, h.flag, h.help]
  rfl

theorem legacy_cases {done todo : List Setting} {setting : Setting}
    (h : done ++ setting :: todo <+: legacy) :
    done = [] ∧ setting = .party ∨ done = [.party] ∧ setting = .port ∨
      done = [.party, .port] ∧ setting = .circuit ∨
      done = [.party, .port, .circuit] ∧ setting = .shard ∨
      done = [.party, .port, .circuit, .shard] ∧ setting = .remote := by
  obtain ⟨rest, h⟩ := h
  have hdone : done = legacy.take done.length := by
    rw [← h, List.append_assoc, List.take_left]
  have hsetting : legacy[done.length]? = some setting := by
    rw [← h, List.append_assoc, List.getElem?_append_right le_rfl, Nat.sub_self]
    rfl
  have hlt : done.length < 5 := (List.getElem?_eq_some_iff.mp hsetting).1
  generalize done.length = k at hdone hsetting hlt
  subst hdone
  interval_cases k <;> cases hsetting <;> decide

/-- A word goes to the first of the five fields that looks unset, which is the one that it is
for when those in front of it are as they are in a valid configuration. -/
theorem positional_of_next {done todo : List Setting} {setting : Setting} {value : List Char}
    (hvalid : Valid fileExists a) (hlegacy : done ++ setting :: todo <+: legacy)
    (hdone : ∀ s ∈ done, s.field.get x = s.field.get a)
    (hunset : setting.field.get x = setting.field.get {})
    (hdigit : setting = .party ∨ setting = .port → startsWithDigit value) :
    positional x value = .ok (setting.read x value) := by
  have hparty : a.party ≠ 0 := by have := hvalid.party; omega
  have hport : a.port ≠ 0 := by have := hvalid.port; omega
  have hshard : a.shardHex ≠ [] := by
    intro h
    have := hvalid.shardHex
    rw [h] at this
    cases this
  obtain ⟨rfl, rfl⟩ | ⟨rfl, rfl⟩ | ⟨rfl, rfl⟩ | ⟨rfl, rfl⟩ | ⟨rfl, rfl⟩ := legacy_cases hlegacy
  · have hunset : x.party = 0 := hunset
    rw [positional, if_pos ⟨hunset, hdigit (.inl rfl)⟩]
    rfl
  · have hunset : x.port = 0 := hunset
    have hfirst : x.party = a.party := hdone .party (by simp)
    rw [positional, if_neg (fun h => hparty (hfirst ▸ h.1)), if_pos ⟨hunset, hdigit (.inr rfl)⟩]
    rfl
  · have hunset : x.circuitFile = [] := hunset
    have hfirst : x.party = a.party := hdone .party (by simp)
    have hsecond : x.port = a.port := hdone .port (by simp)
    rw [positional, if_neg (fun h => hparty (hfirst ▸ h.1)),
      if_neg (fun h => hport (hsecond ▸ h.1)), if_pos hunset]
    rfl
  · have hunset : x.shardHex = [] := hunset
    have hfirst : x.party = a.party := hdone .party (by simp)
    have hsecond : x.port = a.port := hdone .port (by simp)
    have hthird : x.circuitFile = a.circuitFile := hdone .circuit (by simp)
    rw [positional, if_neg (fun h => hparty (hfirst ▸ h.1)),
      if_neg (fun h => hport (hsecond ▸ h.1)), if_neg (hthird ▸ hvalid.circuitFile.1),
      if_pos hunset]
    rfl
  · have hunset : x.remoteHost = "127.0.0.1".toList := hunset
    have hfirst : x.party = a.party := hdone .party (by simp)
    have hsecond : x.port = a.port := hdone .port (by simp)
    have hthird : x.circuitFile = a.circuitFile := hdone .circuit (by simp)
    have hfourth : x.shardHex = a.shardHex := hdone .shard (by simp)
    rw [positional, if_neg (fun h => hparty (hfirst ▸ h.1)),
      if_neg (fun h => hport (hsecond ▸ h.1)), if_neg (hthird ▸ hvalid.circuitFile.1),
      if_neg (hfourth ▸ hshard), if_pos hunset]
    rfl

theorem Agree.tail (h : Agree a (item :: items)) : Agree a items where
  agrees other hother := h.agrees other (List.mem_cons_of_mem _ hother)
  isWord setting value hmem := h.isWord setting value (List.mem_cons_of_mem _ hmem)
  digit setting value hmem := h.digit setting value (List.mem_cons_of_mem _ hmem)
  once setting value value' hmem hnamed :=
    h.once setting value value' (List.mem_cons_of_mem _ hmem) (List.mem_cons_of_mem _ hnamed)

/-- An item for another setting leaves the field of a word alone. -/
theorem get_apply_of_ne {setting : Setting} (hlegacy : setting ∈ legacy)
    (hne : ∀ value, item ≠ .named setting value ∧ item ≠ .bare setting value) :
    setting.field.get (item.apply x) = setting.field.get x := by
  refine get_apply_of_not_sets ?_
  cases item with
  | named other value | bare other value =>
    have hother : setting ≠ other := by
      rintro rfl
      simpa using hne value
    fin_cases hlegacy <;> cases other <;> simp [Item.Sets, Setting.field] at hother ⊢
  | flag option =>
    fin_cases hlegacy <;> cases option <;> simp [Item.Sets, Setting.field, Flag.field]

/-- The words of one item. -/
theorem parseArgs_item {done : List Setting} (hvalid : Valid fileExists a)
    (h : Agree a (item :: items))
    (hlegacy : done ++ (item :: items).filterMap Item.bare? <+: legacy)
    (hdone : ∀ s ∈ done, s.field.get x = s.field.get a)
    (hunset : ∀ s ∈ item.bare?, s.field.get x = s.field.get {}) (rest : List (List Char)) :
    parseArgs x (item.words ++ rest) = parseArgs (item.apply x) rest := by
  cases item with
  | named setting value => exact parseArgs_named x setting value rest
  | bare setting value =>
    have hmem : .bare setting value ∈ .bare setting value :: items := List.mem_cons_self
    have hnext := positional_of_next hvalid hlegacy hdone (hunset setting rfl)
      (h.digit setting value hmem)
    show parseArgs x (value :: rest) = _
    rw [parseArgs_word x (h.isWord setting value hmem), hnext]
    rfl
  | flag option => exact parseArgs_flag x option rest

/-- The words of a command line are read as the items they were made from. The invariant is that
the fields of the words that have been read are set, and those of the words to come are not. -/
theorem parseArgs_words {done : List Setting} (hvalid : Valid fileExists a) (h : Agree a items)
    (hlegacy : done ++ items.filterMap Item.bare? <+: legacy)
    (hdone : ∀ s ∈ done, s.field.get x = s.field.get a)
    (hunset : ∀ s ∈ items.filterMap Item.bare?, s.field.get x = s.field.get {}) :
    parseArgs x (items.flatMap Item.words) = .ok (items.foldl Item.apply x) := by
  induction items generalizing x done with
  | nil => rw [List.flatMap_nil, parseArgs, List.foldl_nil]
  | cons item items ih =>
    have hagrees := h.agrees item List.mem_cons_self
    have hsplit : (item :: items).filterMap Item.bare? =
        item.bare?.toList ++ items.filterMap Item.bare? := by
      cases hitem : item.bare? <;> simp [hitem]
    rw [List.flatMap_cons, List.foldl_cons, parseArgs_item hvalid h hlegacy hdone
      fun s hs => hunset s (by rw [hsplit]; simp [Option.mem_def.mp hs])]
    rw [hsplit] at hlegacy hunset
    have hnodup : (done ++ (item.bare?.toList ++ items.filterMap Item.bare?)).Nodup :=
      hlegacy.sublist.nodup (by decide)
    rw [← List.append_assoc] at hlegacy hnodup
    refine ih h.tail hlegacy (fun s hs => get_apply_of_agrees hagrees ?_) fun s hs => ?_
    · rcases List.mem_append.mp hs with hs | hs
      · exact .inl (hdone s hs)
      · cases item with
        | bare setting value =>
          cases List.mem_singleton.mp hs
          exact .inr (.inl rfl)
        | named | flag => cases hs
    · rw [← hunset s (List.mem_append_right _ hs)]
      refine get_apply_of_ne (hlegacy.subset (List.mem_append_right _ hs)) fun value => ⟨?_, ?_⟩
      · rintro rfl
        obtain ⟨other, hother, hs⟩ := List.mem_filterMap.mp hs
        cases other with
        | bare setting text =>
          cases hs
          exact h.once _ text value (List.mem_cons_of_mem _ hother) List.mem_cons_self
        | named | flag => cases hs
      · rintro rfl
        exact (List.nodup_append.mp hnodup).2.2 s (List.mem_append_right _ (by simp [Item.bare?]))
          s hs rfl

theorem parseArgs_of_spells (hvalid : Valid fileExists a) (h : Spells a items) :
    parseArgs {} (items.flatMap Item.words) = .ok a := by
  have hitems := @parseArgs_words fileExists a {} items [] hvalid h.toAgree h.inOrder nofun
    fun _ _ => rfl
  rw [hitems, h.foldl_apply_eq]

/-! ## The environment and the checks -/

theorem orEnv_eq_iff {α : Type} [DecidableEq α] {name : String} {unset current : α}
    {read : List Char → α} :
    orEnv getenv name unset read current = current ↔
      (current = unset → ∀ v ∈ getenv name, read v.toList = unset) := by
  unfold orEnv
  split_ifs with hunset
  · subst hunset
    cases getenv name <;> simp
  · exact iff_of_true rfl fun h => absurd h hunset

theorem withEnvironment_eq_iff : withEnvironment getenv a = a ↔ Undisturbed getenv a := by
  constructor
  · intro h
    have hhost : orEnv getenv "FREEHOLD_SMTP_HOST" [] id a.smtpHost = a.smtpHost :=
      congrArg CLIArgs.smtpHost h
    have hport : orEnv getenv "FREEHOLD_SMTP_PORT" 25 atoi a.smtpPort = a.smtpPort :=
      congrArg CLIArgs.smtpPort h
    have hfrom : orEnv getenv "FREEHOLD_EMAIL_FROM" "noreply@freehold.local".toList id
      a.emailFrom = a.emailFrom := congrArg CLIArgs.emailFrom h
    have hto : orEnv getenv "FREEHOLD_EMAIL_TO" [] id a.emailTo = a.emailTo :=
      congrArg CLIArgs.emailTo h
    have huser : orEnv getenv "FREEHOLD_SMTP_USER" [] id a.smtpUser = a.smtpUser :=
      congrArg CLIArgs.smtpUser h
    have hpass : orEnv getenv "FREEHOLD_SMTP_PASS" [] id a.smtpPass = a.smtpPass :=
      congrArg CLIArgs.smtpPass h
    exact ⟨orEnv_eq_iff.mp hhost, orEnv_eq_iff.mp hport, orEnv_eq_iff.mp hfrom,
      orEnv_eq_iff.mp hto, orEnv_eq_iff.mp huser, orEnv_eq_iff.mp hpass⟩
  · intro h
    rw [withEnvironment, orEnv_eq_iff.mpr h.smtpHost, orEnv_eq_iff.mpr h.smtpPort,
      orEnv_eq_iff.mpr h.emailFrom, orEnv_eq_iff.mpr h.emailTo, orEnv_eq_iff.mpr h.smtpUser,
      orEnv_eq_iff.mpr h.smtpPass]

theorem validateArgs_eq_ok_iff : validateArgs fileExists a = .ok () ↔ Valid fileExists a := by
  unfold validateArgs
  split_ifs with hparty hport hcircuit hshard
  · exact iff_of_false nofun fun h => by have := h.party; omega
  · exact iff_of_false nofun fun h => by have := h.port; omega
  · refine iff_of_false nofun fun h => ?_
    rcases hcircuit with hempty | hmissing
    · exact h.circuitFile.1 hempty
    · cases h.circuitFile.2.symm.trans hmissing
  · exact iff_of_false nofun fun h => by cases h.shardHex.symm.trans hshard
  · rw [not_or, Bool.not_eq_false] at hcircuit
    exact iff_of_true rfl ⟨by omega, by omega, hcircuit, Bool.eq_true_of_not_eq_false hshard⟩

theorem checked_eq_ok_iff {shardBits : List Bool} :
    checked fileExists x = .ok (a, shardBits) ↔
      x = a ∧ Valid fileExists a ∧ parseShard a.shardHex = some shardBits := by
  unfold checked
  cases hchecks : validateArgs fileExists x with
  | error refusal =>
    refine iff_of_false nofun ?_
    rintro ⟨rfl, hvalid, -⟩
    cases hchecks.symm.trans (validateArgs_eq_ok_iff.mpr hvalid)
  | ok =>
    have hvalid := validateArgs_eq_ok_iff.mp hchecks
    show (match parseShard x.shardHex with
      | some bits => Except.ok (x, bits)
      | none => Except.error Refusal.shardHex) = _ ↔ _
    constructor
    · intro h
      cases hbits : parseShard x.shardHex with
      | none =>
        rw [hbits] at h
        cases h
      | some bits =>
        rw [hbits] at h
        cases h
        exact ⟨rfl, hvalid, hbits⟩
    · rintro ⟨rfl, -, hbits⟩
      rw [hbits]

/-- What `main` starts with has passed the checks, and is what `parse_args` made, with the
settings of the environment. -/
theorem startup_eq_ok_iff {argv : List (List Char)} {shardBits : List Bool} :
    startup fileExists getenv argv = .ok (a, shardBits) ↔
      ∃ given, parseArgs {} argv = .ok given ∧ withEnvironment getenv given = a ∧
        Valid fileExists a ∧ parseShard a.shardHex = some shardBits := by
  unfold startup
  cases parseArgs {} argv with
  | error refusal =>
    refine iff_of_false (fun h => by cases h) ?_
    rintro ⟨given, hgiven, -⟩
    cases hgiven
  | ok given =>
    refine checked_eq_ok_iff.trans ⟨fun h => ⟨given, rfl, h⟩, ?_⟩
    rintro ⟨given', hgiven, h⟩
    rwa [Except.ok.inj hgiven]

/-! ## Writing a command line -/

theorem rfindColon_eq_none {text : List Char} (h : ':' ∉ text) : rfindColon text = none := by
  induction text with
  | nil => rfl
  | cons c rest ih =>
    rw [List.mem_cons, not_or] at h
    rw [rfindColon, ih h.2]
    exact if_neg (Ne.symm h.1)

/-- The last colon is found, whatever stands before it. -/
theorem rfindColon_append (before : List Char) {behind : List Char} (h : ':' ∉ behind) :
    rfindColon (before ++ ':' :: behind) = some (before, behind) := by
  induction before with
  | nil =>
    rw [List.nil_append, rfindColon, rfindColon_eq_none h]
    rfl
  | cons c before ih => rw [List.cons_append, rfindColon, ih]

theorem parseLogLevel_logLevelStr (level : LogLevel) :
    parseLogLevel (logLevelStr level) = level := by
  cases level <;> rfl

theorem strtol_ofInt (n : ℤ) : strtol (Decimal.ofInt n) = n := by
  have hdigits : (Nat.toDigits 10 n.natAbs).all Char.isDigit :=
    List.all_eq_true.mpr fun c hc => Decimal.isDigit_of_mem_digits hc
  have hvalue : digitsValue (Nat.toDigits 10 n.natAbs) = n.natAbs := by
    rw [Discovery.digitsValue_eq hdigits]
    simp
  unfold Decimal.ofInt
  split_ifs with hsign
  · show -digitsValue (Nat.toDigits 10 n.natAbs) = n
    omega
  · cases htext : Nat.toDigits 10 n.natAbs with
    | nil => exact absurd htext Nat.toDigits_ne_nil
    | cons c rest =>
      rw [htext] at hdigits hvalue
      rw [Mail.strtol_cons_of_isDigit (List.all_eq_true.mp hdigits c List.mem_cons_self), hvalue]
      omega

theorem atoi_ofInt {n : ℤ} (hlow : -2 ^ 31 ≤ n) (hhigh : n < 2 ^ 31) :
    atoi (Decimal.ofInt n) = n := by
  have hlong : max (-2 ^ 63) (min (2 ^ 63 - 1) n) = n := by
    rw [min_eq_right (by omega), max_eq_right (by omega)]
  rw [atoi, strtol_ofInt, hlong]
  exact Int.bmod_eq_of_le (by omega) (by omega)

/-- The numbers are of type `int`. -/
def CLIArgs.Fits (a : CLIArgs) : Prop :=
  ∀ n ∈ [a.party, a.port, a.relayPort, a.discoveryPort, a.forwarderPort, a.smtpPort],
    -2 ^ 31 ≤ n ∧ n < 2 ^ 31

/-- The options without a value that are needed, where the log level is named by its option. -/
def CLIArgs.flags (a : CLIArgs) : List Flag :=
  (if a.noRelay then [Flag.noRelay] else []) ++
    (if a.noForwarder then [Flag.noForwarder] else []) ++
      if a.noStarttls then [Flag.noStarttls] else []

/-- A command line that names every setting. -/
def CLIArgs.options (a : CLIArgs) : List Item :=
  [Item.named .party (Decimal.ofInt a.party), .named .port (Decimal.ofInt a.port),
    .named .circuit a.circuitFile, .named .shard a.shardHex, .named .remote a.remoteHost,
    .named .relay (a.relayHost ++ ':' :: Decimal.ofInt a.relayPort),
    .named .discoveryPort (Decimal.ofInt a.discoveryPort),
    .named .forwarderPort (Decimal.ofInt a.forwarderPort),
    .named .smtpHost a.smtpHost, .named .smtpPort (Decimal.ofInt a.smtpPort),
    .named .emailFrom a.emailFrom, .named .emailTo a.emailTo, .named .smtpUser a.smtpUser,
    .named .smtpPass a.smtpPass, .named .petitionRef a.petitionRef,
    .named .logLevel (logLevelStr a.logLevel)] ++ a.flags.map Item.flag

theorem bare?_of_mem_options (h : item ∈ a.options) : item.bare? = none := by
  rcases List.mem_append.mp h with h | h
  · fin_cases h <;> rfl
  · obtain ⟨o, -, rfl⟩ := List.mem_map.mp h
    rfl

theorem set_of_mem_flags {o : Flag} (h : o ∈ a.flags) : o.set a = a := by
  simp only [CLIArgs.flags, List.mem_append, List.mem_ite_nil_right, List.mem_singleton] at h
  obtain (⟨hflag, rfl⟩ | ⟨hflag, rfl⟩) | ⟨hflag, rfl⟩ := h <;> simp only [Flag.set, ← hflag]

theorem apply_of_mem_options (hfits : a.Fits) (h : item ∈ a.options) : item.apply a = a := by
  have hrelay : rfindColon (a.relayHost ++ ':' :: Decimal.ofInt a.relayPort) =
      some (a.relayHost, Decimal.ofInt a.relayPort) :=
    rfindColon_append _ (Decimal.notMem_ofInt (by decide) (by decide))
  have hread {n : ℤ} (hn : n ∈ [a.party, a.port, a.relayPort, a.discoveryPort, a.forwarderPort,
      a.smtpPort]) : atoi (Decimal.ofInt n) = n := atoi_ofInt (hfits n hn).1 (hfits n hn).2
  rcases List.mem_append.mp h with h | h
  · fin_cases h <;>
    simp [Item.apply, Setting.read, hrelay, hread, parseLogLevel_logLevelStr]
  · obtain ⟨o, ho, rfl⟩ := List.mem_map.mp h
    exact set_of_mem_flags ho

theorem exists_sets (f : Field) : f.get {} = f.get a ∨ ∃ item ∈ a.options, item.Sets f := by
  have hnamed : ∀ s : Setting, ∃ item ∈ a.options, item.Sets s.field := by
    intro s
    cases s <;> exact ⟨.named _ _, by simp [CLIArgs.options]; rfl, .inl rfl⟩
  have hflag {o : Flag} {set : Bool} (hmem : set → o ∈ a.flags) :
      false = set ∨ ∃ item ∈ a.options, item.Sets o.field := by
    cases set with
    | false => exact .inl rfl
    | true =>
      exact .inr ⟨_, List.mem_append_right _ (List.mem_map_of_mem (hmem rfl)), rfl⟩
  have hport : ∃ item ∈ a.options, item.Sets .relayPort := by
    refine ⟨.named .relay _, by simp [CLIArgs.options]; rfl, .inr ⟨rfl, rfl, ?_⟩⟩
    rw [rfindColon_append _ (Decimal.notMem_ofInt (by decide) (by decide))]
    rfl
  cases f with
  | noRelay => exact hflag (o := .noRelay) fun h : a.noRelay => by simp [CLIArgs.flags, h]
  | noForwarder =>
    exact hflag (o := .noForwarder) fun h : a.noForwarder => by simp [CLIArgs.flags, h]
  | noStarttls => exact hflag (o := .noStarttls) fun h : a.noStarttls => by simp [CLIArgs.flags, h]
  | relayPort => exact .inr hport
  | party => exact .inr (hnamed .party)
  | port => exact .inr (hnamed .port)
  | circuitFile => exact .inr (hnamed .circuit)
  | shardHex => exact .inr (hnamed .shard)
  | remoteHost => exact .inr (hnamed .remote)
  | relayHost => exact .inr (hnamed .relay)
  | discoveryPort => exact .inr (hnamed .discoveryPort)
  | forwarderPort => exact .inr (hnamed .forwarderPort)
  | logLevel => exact .inr (hnamed .logLevel)
  | smtpHost => exact .inr (hnamed .smtpHost)
  | smtpPort => exact .inr (hnamed .smtpPort)
  | emailFrom => exact .inr (hnamed .emailFrom)
  | emailTo => exact .inr (hnamed .emailTo)
  | smtpUser => exact .inr (hnamed .smtpUser)
  | smtpPass => exact .inr (hnamed .smtpPass)
  | petitionRef => exact .inr (hnamed .petitionRef)

/-- Every configuration can be asked for. -/
theorem spells_options (hfits : a.Fits) : Spells a a.options where
  agrees item hitem := apply_of_mem_options hfits hitem
  isWord setting value h := nomatch bare?_of_mem_options h
  digit setting value h := nomatch bare?_of_mem_options h
  once setting value value' h := nomatch bare?_of_mem_options h
  covers := exists_sets
  inOrder := by
    rw [List.filterMap_eq_nil_iff.mpr fun item hitem => bare?_of_mem_options hitem]
    exact List.nil_prefix

/-- However the command line spells a configuration: `main` starts with it exactly if it passes the
checks, its shard is a text of bytes, and the environment has nothing else for a setting that is
at its default. -/
theorem startup_of_spells (fileExists : List Char → Bool) (getenv : String → Option String)
    (a : CLIArgs) (hfits : a.Fits) :
    (∃ items, Spells a items) ∧ ∀ items, Spells a items → ∀ shardBits,
      (startup fileExists getenv (items.flatMap Item.words) = .ok (a, shardBits) ↔
        Valid fileExists a ∧
          (∃ bytes, decodeHex a.shardHex = some bytes ∧ shardBits = pushBits bytes) ∧
          Undisturbed getenv a) := by
  refine ⟨⟨a.options, spells_options hfits⟩, fun items hitems shardBits => ?_⟩
  rw [startup_eq_ok_iff, ← withEnvironment_eq_iff]
  constructor
  · rintro ⟨given, hgiven, hchanged, hvalid, hbits⟩
    cases hgiven.symm.trans (parseArgs_of_spells hvalid hitems)
    exact ⟨hvalid, (parseShard_eq_some_iff.mp hbits).2, hchanged⟩
  · rintro ⟨hvalid, hbytes, hchanged⟩
    exact ⟨a, parseArgs_of_spells hvalid hitems, hchanged, hvalid,
      parseShard_eq_some_iff.mpr ⟨hvalid.shardHex, hbytes⟩⟩

/-- `1 --email-to a@b 8080 --relay [::1]:7 c --verbose ff`. -/
def demoItems : List Item :=
  [.bare .party ['1'], .named .emailTo "a@b".toList, .bare .port "8080".toList,
    .named .relay "[::1]:7".toList, .bare .circuit ['c'], .flag .verbose, .bare .shard ['f', 'f']]

def demoArgs : CLIArgs where
  party := 1
  port := 8080
  circuitFile := ['c']
  shardHex := ['f', 'f']
  relayHost := "[::1]".toList
  relayPort := 7
  logLevel := .trace
  emailTo := "a@b".toList

theorem bare_demoItems {setting : Setting} {value : List Char}
    (h : .bare setting value ∈ demoItems) :
    setting = .party ∧ value = ['1'] ∨ setting = .port ∧ value = "8080".toList ∨
      setting = .circuit ∧ value = ['c'] ∨ setting = .shard ∧ value = ['f', 'f'] := by
  simpa [demoItems] using h

theorem spells_demoItems : Spells demoArgs demoItems where
  agrees := by decide +kernel
  isWord setting value h := by
    obtain ⟨rfl, rfl⟩ | ⟨rfl, rfl⟩ | ⟨rfl, rfl⟩ | ⟨rfl, rfl⟩ := bare_demoItems h <;>
    exact ⟨by decide +kernel, by decide +kernel, by decide +kernel⟩
  digit setting value h := by
    obtain ⟨rfl, rfl⟩ | ⟨rfl, rfl⟩ | ⟨rfl, rfl⟩ | ⟨rfl, rfl⟩ := bare_demoItems h <;> decide +kernel
  once setting value value' h := by
    obtain ⟨rfl, rfl⟩ | ⟨rfl, rfl⟩ | ⟨rfl, rfl⟩ | ⟨rfl, rfl⟩ := bare_demoItems h <;>
    simp [demoItems]
  covers f := by
    cases f <;> first | exact .inl rfl | exact .inr (by decide +kernel)
  inOrder := ⟨[.remote], rfl⟩

theorem startup_of_spells_demo :
    startup (fun _ => true) (fun _ => none) (List.map String.toList
      ["1", "--email-to", "a@b", "8080", "--relay", "[::1]:7", "c", "--verbose", "ff"]) =
        .ok (demoArgs, List.replicate 8 true) := by
  have hfits : demoArgs.Fits := by
    norm_num [CLIArgs.Fits, demoArgs]
  exact ((startup_of_spells (fun _ => true) (fun _ => none) demoArgs hfits).2 demoItems
    spells_demoItems (List.replicate 8 true)).mpr
    ⟨⟨.inl rfl, by decide, by decide, rfl⟩, ⟨[255], by decide, by decide⟩,
      ⟨nofun, nofun, nofun, nofun, nofun, nofun⟩⟩

end Freehold.Server.CommandLine
