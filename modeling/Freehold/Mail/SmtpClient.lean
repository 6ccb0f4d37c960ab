import Freehold.Foundation.Observation

/-!
# The verification e-mail (`smtp_client.cpp`)

`send_verification_email` speaks SMTP with the mail server, in plain text and, after
STARTTLS, through a TLS session. Characters stand for bytes. What the server sends is a list
of `recv` results; whether the connection, a write or the TLS handshake succeeds is up to
the surroundings.
-/

namespace Freehold.Mail

open Interaction Interaction.Program

/-- `sender` and `recipient` are the fields `from` and `to`. -/
structure SmtpConfig where
  host : List Char
  port : ℕ
  sender : List Char
  recipient : List Char
  user : List Char
  pass : List Char
  starttls : Bool

/-- `nullifier_hex`, `petition_ref` and `epoch`. -/
structure VerificationPayload where
  nullifierHex : List Char
  petitionRef : List Char
  epoch : ℤ
  deriving DecidableEq

/-! ## Replies -/

/-- The characters that `atoi` skips. -/
def isSpace (c : Char) : Bool := c = ' ' || ('\t' ≤ c && c ≤ '\r')

def digitsValue (text : List Char) : ℤ :=
  (text.takeWhile Char.isDigit).foldl (fun value c => 10 * value + (c.toNat - '0'.toNat : ℕ)) 0

def strtol (text : List Char) : ℤ :=
  match text.dropWhile isSpace with
  | '-' :: digits => -digitsValue digits
  | '+' :: digits => digitsValue digits
  | digits => digitsValue digits

/-- `(int)strtol(...)`, where a `long` has 64 bits. -/
def atoi (text : List Char) : ℤ :=
  (max (-2 ^ 63) (min (2 ^ 63 - 1) (strtol text))).bmod (2 ^ 32)

/-- A line without its `\r`. -/
def stripCr (line : List Char) : List Char :=
  if line.getLast? = some '\r' then line.dropLast else line

/-- The code of a final line: three characters and a space. -/
def finalCode (line : List Char) : Option ℤ :=
  if 4 ≤ (stripCr line).length ∧ (stripCr line)[3]? = some ' ' then
    some (atoi ((stripCr line).take 3))
  else none

/-- The first final line among the complete lines. -/
def responseCode (out : List Char) : Option ℤ := (out.splitOn '\n').dropLast.findSome? finalCode

/-- A reply: its code, or -1, and its text. -/
structure Response where
  code : ℤ
  text : List Char

/-- `smtp_read_response` on the `recv` results to come, with `out` read so far. -/
def smtpReadResponse : List (List Char) → List Char → Response × List (List Char)
  | [], out => (⟨-1, out⟩, [])
  | received :: rest, out =>
    match responseCode (out ++ received) with
    | some code => (⟨code, out ++ received⟩, rest)
    | none => smtpReadResponse rest (out ++ received)

example : (smtpReadResponse ["250-a\r\n25".toList, "0 b\r\n".toList] []).1.code = 250 := by decide

/-! ## Commands -/

inductive Command where
  | ehlo
  | starttls
  | authPlain (user pass : List Char)
  | mailFrom (sender : List Char)
  | rcptTo (recipient : List Char)
  | data
  | message (cfg : SmtpConfig) (payload : VerificationPayload) (date timestamp : List Char)
  | quit

def base64Digit (n : ℕ) : Char :=
  ("ABCDEFGHIJKLMNOPQRSTUVWXYZabcdefghijklmnopqrstuvwxyz0123456789+/".toList).getD n '='

/-- `EVP_EncodeBlock`. -/
def base64Encode : List Char → List Char
  | a :: b :: c :: rest =>
    let n := a.toNat * 65536 + b.toNat * 256 + c.toNat
    base64Digit (n / 262144) :: base64Digit (n / 4096 % 64) :: base64Digit (n / 64 % 64) ::
      base64Digit (n % 64) :: base64Encode rest
  | [a, b] =>
    let n := a.toNat * 65536 + b.toNat * 256
    [base64Digit (n / 262144), base64Digit (n / 4096 % 64), base64Digit (n / 64 % 64), '=']
  | [a] =>
    let n := a.toNat * 65536
    [base64Digit (n / 262144), base64Digit (n / 4096 % 64), '=', '=']
  | [] => []

/-- A header or body line. -/
def mailLine (parts : List (List Char)) : List Char := parts.flatten ++ ['\r', '\n']

/-- `body`. -/
def messageText (cfg : SmtpConfig) (payload : VerificationPayload) (date timestamp : List Char) :
    List Char :=
  mailLine ["Subject: [Freehold] Petition Signature Verified".toList] ++
  mailLine ["From: <".toList, cfg.sender, ">".toList] ++
  mailLine ["To: <".toList, cfg.recipient, ">".toList] ++
  mailLine ["Message-ID: <".toList, payload.nullifierHex.take 16, "@freehold.local>".toList] ++
  mailLine ["Date: ".toList, date] ++
  mailLine ["Content-Type: text/plain; charset=utf-8".toList] ++
  mailLine [] ++
  mailLine ["FREEHOLD PETITION SIGNATURE VERIFICATION".toList] ++
  mailLine ["=========================================".toList] ++
  mailLine ["Identity Commitment (Nullifier): ".toList, payload.nullifierHex] ++
  mailLine ["Protocol: Zero-Knowledge SHA-256 via emp-zk".toList] ++
  mailLine ["Epoch: ".toList, (toString payload.epoch).toList] ++
  mailLine ["Petition: ".toList, payload.petitionRef] ++
  mailLine ["Timestamp: ".toList, timestamp] ++
  mailLine [] ++
  mailLine ["This signature was jointly computed by the MPC cluster.".toList] ++
  mailLine ["The nullifier proves one-person-one-vote without revealing identity.".toList] ++
  mailLine [] ++ mailLine [".".toList]

/-- What is written. -/
def Command.text : Command → List Char
  | .ehlo => "EHLO freehold.local\r\n".toList
  | .starttls => "STARTTLS\r\n".toList
  | .authPlain user pass =>
    "AUTH PLAIN ".toList ++
      base64Encode (Char.ofNat 0 :: user ++ Char.ofNat 0 :: pass) ++ "\r\n".toList
  | .mailFrom sender => "MAIL FROM:<".toList ++ sender ++ ">\r\n".toList
  | .rcptTo recipient => "RCPT TO:<".toList ++ recipient ++ ">\r\n".toList
  | .data => "DATA\r\n".toList
  | .message cfg payload date timestamp => messageText cfg payload date timestamp
  | .quit => "QUIT\r\n".toList

/-! ## The dialogue -/

/-- The operations; `tls` says whether `ssl` is set. -/
inductive Op where
  | connect (host : List Char) (port : ℕ)
  | send (tls : Bool) (command : Command)
  | readResponse (tls : Bool)
  | sslCtxNew
  | sslConnect
  | rfc2822Date
  | iso8601Now

abbrev Smtp : Interface where
  Op := Op
  Answer
    | .connect _ _ | .send _ _ | .sslCtxNew | .sslConnect => Bool
    | .readResponse _ => Response
    | .rfc2822Date | .iso8601Now => List Char

/-- Nothing throws. -/
abbrev Dialogue := Program Smtp Empty

/-- Send a command and read the reply, which has to have a certain code: its text. -/
def exchange (tls : Bool) (command : Command) (expected : ℤ) : Dialogue (Option (List Char)) := do
  if ← perform (E := Smtp) (.send tls command) then do
    let response ← perform (E := Smtp) (.readResponse tls)
    pure (if response.code = expected then some response.text else none)
  else pure none

/-- `resp.find("STARTTLS") != npos`. -/
def offersStarttls (resp : List Char) : Bool :=
  resp.tails.any fun tail => "STARTTLS".toList.isPrefixOf tail

/-- From the command to the second greeting. -/
def startTls : Dialogue Bool := do
  match ← exchange false .starttls 220 with
  | none => pure false
  | some _ =>
    if ← perform (E := Smtp) .sslCtxNew then do
      if ← perform (E := Smtp) .sslConnect then do
        let resp ← exchange true .ehlo 250
        pure resp.isSome
      else pure false
    else pure false

def authenticate (cfg : SmtpConfig) (tls : Bool) : Dialogue Bool :=
  if cfg.user.isEmpty then pure true
  else do
    let resp ← exchange tls (.authPlain cfg.user cfg.pass) 235
    pure resp.isSome

def sendMessage (cfg : SmtpConfig) (payload : VerificationPayload) (tls : Bool) :
    Dialogue Bool := do
  match ← exchange tls .data 354 with
  | none => pure false
  | some _ => do
    let date ← perform (E := Smtp) .rfc2822Date
    let timestamp ← perform (E := Smtp) .iso8601Now
    let resp ← exchange tls (.message cfg payload date timestamp) 250
    pure resp.isSome

/-- From AUTH PLAIN to QUIT, with or without TLS. -/
def transaction (cfg : SmtpConfig) (payload : VerificationPayload) (tls : Bool) :
    Dialogue Bool := do
  if ← authenticate cfg tls then do
    match ← exchange tls (.mailFrom cfg.sender) 250 with
    | none => pure false
    | some _ => do
      match ← exchange tls (.rcptTo cfg.recipient) 250 with
      | none => pure false
      | some _ => do
        if ← sendMessage cfg payload tls then do
          let _ ← perform (E := Smtp) (.send tls .quit)
          let _ ← perform (E := Smtp) (.readResponse tls)
          pure true
        else pure false
  else pure false

/-- Behind the first greeting, whose text is `resp`. -/
def afterEhlo (cfg : SmtpConfig) (payload : VerificationPayload) (resp : List Char) :
    Dialogue Bool :=
  if cfg.starttls && offersStarttls resp then do
    if ← startTls then transaction cfg payload true else pure false
  else transaction cfg payload false

def sendVerificationEmail (cfg : SmtpConfig) (payload : VerificationPayload) : Dialogue Bool :=
  if cfg.host.isEmpty || cfg.recipient.isEmpty then pure false
  else do
    if ← perform (E := Smtp) (.connect cfg.host cfg.port) then do
      let greeting ← perform (E := Smtp) (.readResponse false)
      if greeting.code = 220 then do
        match ← exchange false .ehlo 250 with
        | none => pure false
        | some resp => afterEhlo cfg payload resp
      else pure false
    else pure false

/-! ## The server -/

/-- What the client meets. -/
structure Env where
  /-- Name resolution, `socket` and `connect`. -/
  connects : Bool
  /-- Whether the `k`-th write succeeds. -/
  writes : ℕ → Bool
  sslCtxNew : Bool
  sslConnect : Bool
  rfc2822Date : List Char
  iso8601Now : List Char

structure Connection where
  /-- The `recv` results still to come. -/
  incoming : List (List Char)
  sent : ℕ

def serve (env : Env) : Handler Smtp Connection
  | .connect _ _, s => (env.connects, s)
  | .send _ _, s => (env.writes s.sent, { s with sent := s.sent + 1 })
  | .readResponse _, s =>
    ((smtpReadResponse s.incoming []).1, { s with incoming := (smtpReadResponse s.incoming []).2 })
  | .sslCtxNew, s => (env.sslCtxNew, s)
  | .sslConnect, s => (env.sslConnect, s)
  | .rfc2822Date, s => (env.rfc2822Date, s)
  | .iso8601Now, s => (env.iso8601Now, s)

end Freehold.Mail
