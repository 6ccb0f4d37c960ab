import Freehold.Foundation.Interaction
import Freehold.Server.Bits

/-!
# What a session of the server acts on

The operations of `emp` (set-up, `feed`, circuit evaluation, `reveal`, `finalize`),
of the LLSS library, of the file system and of the memory of the process. `feed` and
`reveal` carry values faithfully: a wire fed by its owner holds the owner's bits, and
`reveal` to `PUBLIC` discloses the values of the wires it is given.

Memory that `new` or a local array leaves as it was is answered by the environment,
so a wire that nothing has assigned is visible as `Block.stale`.
-/

namespace Freehold.Server

open Interaction

/-- `ALICE` and `BOB`, the values of `current_party`. -/
inductive Party where
  | alice
  | bob
  deriving DecidableEq, Repr

def Party.number : Party → ℕ
  | .alice => 1
  | .bob => 2

/-- A wire label of `emp` with the bit it stands for. -/
inductive Block where
  | wire (value : Bool)
  | stale (value : Bool)
  deriving DecidableEq, Repr

def Block.value : Block → Bool
  | .wire value => value
  | .stale value => value

/-- Assigned by `feed` or by a circuit. -/
def Block.assigned : Block → Bool
  | .wire _ => true
  | .stale _ => false

/-- The wires that an operation stores in a buffer of `n` blocks. -/
def wires (n : ℕ) (value : ℕ → Bool) : List Block :=
  (List.range n).map fun i => .wire (value i)

/-- A parsed circuit file: the total widths its header declares, and what it computes. -/
structure BristolFashion where
  numInput : ℕ
  numOutput : ℕ
  eval : List Bool → ℕ → Bool

/-- HMAC-SHA256 on a key and a message. -/
abbrev HmacSha256 := List UInt8 → List UInt8 → Bytes 32

/-- Buffers that `new emp::block[n]` allocates and the code does not fill. -/
inductive Buffer where
  | b64OutBits
  | inBits
  | outBits
  deriving DecidableEq, Repr

/-- The exceptions a session ends with. -/
inductive Failure where
  | runtimeError (what : String)
  | badArrayNewLength
  | llssNetwork
  deriving DecidableEq, Repr

/-- `MPC_TLS_Session`. -/
structure MpcTlsSession where
  masterSecretShare : Bytes 48
  clientWriteKeyShare : Bytes 16
  serverWriteKeyShare : Bytes 16
  clientWriteIv : Bytes 12
  sequenceNumber : UInt64

/-- The globals `global_tls_session` and, as a flag, the cached AES circuit. -/
structure Globals where
  tls : MpcTlsSession
  aesCircuit : Bool

inductive Op where
  | setupZkBool (party : Party)
  | feed (role owner : Party) (bits : List Bool)
  | computeAes (key plaintext : List Block)
  | compute (circuit : BristolFashion) (inputs : List Block)
  | reveal (wires : List Block)
  | finalizeZkBool
  | newBlocks (buffer : Buffer)
  | authCiphertext
  | dummyShard
  | llssSetup (party : Party) (circuitFile ipNext ipPrev : String)
  | llssRun
  | getenv (name : String)
  | fopen (path : String)
  | readFile (path : String)
  | globals
  | setGlobals (globals : Globals)
  | nullifierCount (nullifier : List Char)
  | nullifierInsert (nullifier : List Char)
  | readNullifierDatabase
  | appendNullifierDatabase (line : List Char)

abbrev Mpc : Interface where
  Op := Op
  Answer
    | .setupZkBool _ | .setGlobals _ | .nullifierInsert _ => Unit
    | .appendNullifierDatabase _ => Unit
    | .feed _ _ _ | .computeAes _ _ | .compute _ _ | .reveal _ | .newBlocks _ => ℕ → Bool
    | .finalizeZkBool | .llssSetup _ _ _ _ | .llssRun | .fopen _ | .nullifierCount _ => Bool
    | .authCiphertext => ℕ → UInt8
    | .dummyShard => UInt64 × UInt64
    | .getenv _ => Option String
    | .readFile _ => Option (List UInt8)
    | .globals => Globals
    | .readNullifierDatabase => Option (List Char)

/-- A function of the server. -/
abbrev Session := Program Mpc Failure

/-! ## One process and its surroundings -/

/-- What one process finds around it and does not change. -/
structure Env where
  getenv : String → Option String
  files : String → Option (List UInt8)
  /-- The AES circuit on the key bits followed by the plaintext bits. -/
  aes : List Bool → ℕ → Bool
  /-- The bits behind the `k`-th feed, where the other party owns it. -/
  peerInputs : ℕ → ℕ → Bool
  heap : Buffer → ℕ → Bool
  authCiphertext : ℕ → UInt8
  dummyShard : UInt64 × UInt64
  cheated : Bool
  llssSetup : Bool
  llssRun : Bool
  /-- Whether `nullifier_database.txt` can be opened for appending. -/
  appends : Bool

/-- The memory of one process. -/
structure Host where
  globals : Globals
  nullifierDatabase : Finset (List Char)
  feeds : ℕ

/-- The text of `nullifier_database.txt`, if the file exists. -/
abbrev Disk := Option (List Char)

structure Machine where
  host : Host
  disk : Disk

/-- A process that has just started: its globals are zero. -/
def Host.start : Host where
  globals :=
    { tls := ⟨⟨List.replicate 48 0, rfl⟩, ⟨List.replicate 16 0, rfl⟩, ⟨List.replicate 16 0, rfl⟩,
        ⟨List.replicate 12 0, rfl⟩, 0⟩
      aesCircuit := false }
  nullifierDatabase := ∅
  feeds := 0

/-- The wire values that a `feed` leads to. -/
def fedBits (env : Env) (feeds : ℕ) (role owner : Party) (bits : List Bool) : ℕ → Bool :=
  if role = owner then fun i => bits.getD i false else env.peerInputs feeds

/-- The values behind the wires, in the order of the buffer. -/
def values (blocks : List Block) : List Bool := blocks.map Block.value

@[simp] theorem fedBits_self (env : Env) (feeds : ℕ) (party : Party) (bits : List Bool) :
    fedBits env feeds party party bits = fun i => bits.getD i false := if_pos rfl

def serve (env : Env) : Handler Mpc Machine
  | .setupZkBool _, m => ((), m)
  | .feed role owner bits, m =>
    (fedBits env m.host.feeds role owner bits, { m with host.feeds := m.host.feeds + 1 })
  | .computeAes key plaintext, m => (env.aes (values key ++ values plaintext), m)
  | .compute circuit inputs, m => (circuit.eval (values inputs), m)
  | .reveal blocks, m => (fun i => (values blocks).getD i false, m)
  | .finalizeZkBool, m => (env.cheated, m)
  | .newBlocks buffer, m => (env.heap buffer, m)
  | .authCiphertext, m => (env.authCiphertext, m)
  | .dummyShard, m => (env.dummyShard, m)
  | .llssSetup _ _ _ _, m => (env.llssSetup, m)
  | .llssRun, m => (env.llssRun, m)
  | .getenv name, m => (env.getenv name, m)
  | .fopen path, m => ((env.files path).isSome, m)
  | .readFile path, m => (env.files path, m)
  | .globals, m => (m.host.globals, m)
  | .setGlobals globals, m => ((), { m with host.globals := globals })
  | .nullifierCount nullifier, m => (decide (nullifier ∈ m.host.nullifierDatabase), m)
  | .nullifierInsert nullifier, m =>
    ((), { m with host.nullifierDatabase := insert nullifier m.host.nullifierDatabase })
  | .readNullifierDatabase, m => (m.disk, m)
  | .appendNullifierDatabase line, m =>
    ((), if env.appends then { m with disk := some (m.disk.getD [] ++ line) } else m)

@[simp] theorem length_wires (n : ℕ) (value : ℕ → Bool) : (wires n value).length = n := by
  simp [wires]

@[simp] theorem length_values (blocks : List Block) : (values blocks).length = blocks.length := by
  simp [values]

theorem values_wires (n : ℕ) (value : ℕ → Bool) :
    values (wires n value) = (List.range n).map value := by
  simp [values, wires, Function.comp_def, Block.value]

theorem range_map_getD (bits : List Bool) :
    ((List.range bits.length).map fun i => bits.getD i false) = bits := by
  refine List.ext_getElem (by simp) fun i _ hi => ?_
  simp [List.getD_eq_getElem?_getD, hi]

/-- Wires fed from a list hold the list. -/
theorem values_wires_getD (bits : List Bool) :
    values (wires bits.length fun i => bits.getD i false) = bits := by
  rw [values_wires, range_map_getD]

end Freehold.Server
