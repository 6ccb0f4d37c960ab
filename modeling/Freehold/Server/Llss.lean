import Freehold.Server.Environment

/-!
# The LLSS transition gate (`llss_mpc.h`)

The LLSS library itself is not part of the server: `setup` and `run` either return or
throw.
-/

namespace Freehold.Server

open Interaction Interaction.Program

structure LLSSContext where
  currentEpoch : ℤ
  threshold : ℤ
  activeNodes : List ℤ
  /-- `llss_protocol` is not null. -/
  llssProtocol : Bool

def LLSSContext.new (party : Party) (epoch threshold : ℤ) (nodes : List ℤ)
    (circuitFile : String) : Session LLSSContext := do
  let envPrev ← perform (E := Mpc) (.getenv "LLSS_IP_PREV")
  let envNext ← perform (E := Mpc) (.getenv "LLSS_IP_NEXT")
  let ipPrev := envPrev.getD "127.0.0.1"
  let ipNext := envNext.getD "127.0.0.1"
  if ← perform (E := Mpc) (.llssSetup party circuitFile ipNext ipPrev) then
    pure ⟨epoch, threshold, nodes, true⟩
  else .throw .llssNetwork

/-- Bit `i` of a row of 128-bit blocks, each given by its two words. -/
def blockBit (shard : ℕ → UInt64 × UInt64) (i : ℕ) : Bool :=
  let word := if i % 128 < 64 then (shard (i / 128)).1 else (shard (i / 128)).2
  word.toNat.testBit (i % 128 % 64)

/-- The context afterwards, and the wires that `feed` stores in `new_shard`. -/
def LLSSContext.applyTransitionGate (llss : LLSSContext) (role : Party)
    (oldShard : ℕ → UInt64 × UInt64) (len : ℕ) : Session (LLSSContext × List Block) := do
  if !llss.llssProtocol then .throw (.runtimeError "LLSS Protocol uninitialized")
  else if ← perform (E := Mpc) .llssRun then do
    let x ← perform (E := Mpc)
      (.feed role .alice ((List.range len).map fun i => blockBit oldShard i))
    pure ({ llss with
      currentEpoch := int32 (llss.currentEpoch + 1)
      activeNodes := llss.activeNodes.dropLast }, wires len x)
  else .throw .llssNetwork

end Freehold.Server
