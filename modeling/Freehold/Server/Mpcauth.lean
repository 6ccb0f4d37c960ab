import Freehold.Server.Llss
import Freehold.Server.Smtp

/-!
# A session of the server (`mpcauth_server.cpp`)

The nullifier database and `execute_mpc_logic`, cut at the comments of the source
into the steps that its main function runs one after the other.
-/

namespace Freehold.Server

open Interaction Interaction.Program

/-! ## Nullifier database -/

/-- What `getline` returns until the end of the file, without the empty lines. -/
def nonemptyLines (text : List Char) : List (List Char) :=
  (text.splitOn '\n').filter fun line => !line.isEmpty

def loadNullifierDatabase : Session Unit := do
  let text ← perform (E := Mpc) .readNullifierDatabase
  (nonemptyLines (text.getD [])).foldlM
    (fun _ line => perform (E := Mpc) (.nullifierInsert line)) ()

def saveNullifier (nullifier : List Char) : Session Unit :=
  perform (E := Mpc) (.appendNullifierDatabase (nullifier ++ ['\n']))

/-! ## The steps of `execute_mpc_logic` -/

/-- `#if ENABLE_LLSS`. The 128 wires that the gate stores do not fit `dummy_shard`; nothing
reads them. -/
def epochTransition (enableLlss : Bool) (party : Party) (requestEpoch clusterEpoch : ℤ) :
    Session Unit := do
  if enableLlss then do
    let llss ← LLSSContext.new party clusterEpoch 3 [1, 2, 3, 4, 5]
      "reference/LLSS-MPC/OptimizedCircuits/mpcauth_dynamic.txt"
    if requestEpoch ≠ clusterEpoch then do
      let dummyShard ← perform (E := Mpc) .dummyShard
      let _ ← llss.applyTransitionGate party (fun _ => dummyShard) 128
      pure ()
    else pure ()
  else pure ()

def passShardPath (party : Party) : String := "shard_" ++ toString party.number ++ "_pass.bin"

def loadPassShard (party : Party) : Session (List Bool) := do
  match ← perform (E := Mpc) (.readFile (passShardPath party)) with
  | some bytes => pure (pushBits bytes)
  | none =>
    .throw (.runtimeError ("Password shard file missing for node " ++ toString party.number))

def shaInLen : ℕ := 512
def shaOutLen : ℕ := 256

/-- `raw_in`: ALICE's shard, cut or padded to 512 bits, and zeros at BOB. -/
def identityInput (party : Party) (myShard : List Bool) : List Bool :=
  (List.range shaInLen).map fun i => if party = .alice then myShard.getD i false else false

/-- The blocks that `compute` reads: the buffer `in_bits`, and past its end the heap. -/
def circuitInputs (circuit : BristolFashion) (inBits : List Block) (heap : ℕ → Bool) :
    List Block :=
  (List.range circuit.numInput).map fun i => inBits.getD i (.stale (heap i))

/-- `out_bits` after `compute` has stored the outputs that the circuit has. -/
def outBits (circuit : BristolFashion) (value heap : ℕ → Bool) : List Block :=
  (List.range shaOutLen).map fun i =>
    if i < circuit.numOutput then .wire (value i) else .stale (heap i)

def computeNullifier (party : Party) (myShard : List Bool) (circuit : BristolFashion) :
    Session (List Char) := do
  let inHeap ← perform (E := Mpc) (.newBlocks .inBits)
  let outHeap ← perform (E := Mpc) (.newBlocks .outBits)
  let inBits ← feed party .alice (identityInput party myShard)
  let value ← perform (E := Mpc) (.compute circuit (circuitInputs circuit inBits inHeap))
  let hashResult ← perform (E := Mpc) (.reveal (outBits circuit value outHeap))
  pure (computeHashToHex hashResult shaOutLen)

def commitNullifier (nullifier : List Char) : Session (List Char) := do
  if ← perform (E := Mpc) (.nullifierCount nullifier) then do
    let _ ← perform (E := Mpc) .finalizeZkBool
    pure []
  else do
    perform (E := Mpc) (.nullifierInsert nullifier)
    saveNullifier nullifier
    if ← perform (E := Mpc) .finalizeZkBool then
      .throw (.runtimeError "ZK proof verification failed: cheating detected.")
    else pure nullifier

/-- Surroundings in which nothing fails, with a given password file. -/
def demoEnv (party : Party) (password : List UInt8) : Env where
  getenv _ := none
  files path :=
    if path = passShardPath party then some password
    else if path ∈ aesPaths then some [] else none
  aes bits i := bits.getD i false
  peerInputs _ _ := false
  heap _ _ := false
  authCiphertext _ := 0
  dummyShard := (0, 0)
  cheated := false
  llssSetup := true
  llssRun := true
  appends := true

theorem demoEnv_passShard (party : Party) (password : List UInt8) :
    (demoEnv party password).files (passShardPath party) = some password := if_pos rfl

def demoMac : HmacSha256 := fun _ _ => ⟨List.replicate 32 0, rfl⟩

/-- A circuit of the width of `sha256`: the first half of its input. -/
def demoCircuit : BristolFashion where
  numInput := 512
  numOutput := 256
  eval bits i := bits.getD i false

/-- A shard of one byte. -/
def demoShard : List Bool := pushBits [0x80]

/-- What a session is started with. -/
structure SessionArgs where
  enableLlss : Bool
  hmac : HmacSha256
  party : Party
  requestEpoch : ℤ
  clusterEpoch : ℤ
  myShard : List Bool
  circuit : BristolFashion

/-- `uint8_t auth_ciphertext[4096]`, as the stack leaves it. -/
def authCiphertextMax : ℕ := 4096

def authBuffer (stack : ℕ → UInt8) : List UInt8 := (List.range authCiphertextMax).map stack

/-- The steps before the identity commitment. -/
def smtpPhase (args : SessionArgs) : Session Unit := do
  perform (E := Mpc) (.setupZkBool args.party)
  epochTransition args.enableLlss args.party args.requestEpoch args.clusterEpoch
  let passShard ← loadPassShard args.party
  initTlsSessionFromShard args.hmac (packShard args.myShard)
  let authCiphertext ← perform (E := Mpc) .authCiphertext
  let _ ← jointSmtpAuthenticate args.party (authBuffer authCiphertext) passShard
  pure ()

/-- Everything up to the nullifier check. -/
def identify (args : SessionArgs) : Session (List Char) := do
  smtpPhase args
  computeNullifier args.party args.myShard args.circuit

def executeMpcLogic (args : SessionArgs) : Session (List Char) := do
  let nullifier ← identify args
  commitNullifier nullifier

end Freehold.Server
