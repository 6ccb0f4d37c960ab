import Freehold.Foundation.Base64

/-!
# Sharing in the browser (`mpc_util.ts`)

A `Uint8Array` is a list of bytes. The `i`-th call of `crypto.getRandomValues` in
`generateXorShares` fills its array with `random i`.
-/

namespace Freehold.Web

/-- `x.toString(2).padStart(8, '0')`. -/
def binaryText (x : UInt8) : List Char := (Nat.toDigits 2 x.toNat).leftpad 8 '0'

def convertBytesToBits (byteString : List UInt8) : List Bool :=
  byteString.flatMap fun x => (binaryText x).map fun b => b = '1'

/-- `crypto.getRandomValues` on a new array; it throws if the array is too long. -/
def getRandomValues (random : ℕ → UInt8) (len : ℕ) : Option (List UInt8) :=
  if len ≤ 65536 then some ((List.range len).map random) else none

/-- `share_i`. -/
def shareOf (randomArray : List UInt8) : List Bool := randomArray.map fun val => val % 2 = 0

/-- `current_xor.map((x, idx) => x !== share_i[idx])`. -/
def xorWith (currentXor shareI : List Bool) : List Bool :=
  currentXor.mapIdx fun idx x => shareI[idx]? ≠ some x

/-- The loop from `i` on, with `count` rounds to go: the shares that it makes, and `current_xor`
after it. -/
def shareLoop (random : ℕ → ℕ → UInt8) (len : ℕ) : ℕ → ℕ → List Bool →
    Option (List (List Bool) × List Bool)
  | _, 0, currentXor => some ([], currentXor)
  | i, count + 1, currentXor => do
    let randomArray ← getRandomValues (random i) len
    let shareI := shareOf randomArray
    let (shares, currentXor) ← shareLoop random len (i + 1) count (xorWith currentXor shareI)
    return (shareI :: shares, currentXor)

/-- The shares, unless `getRandomValues` throws. -/
def generateXorShares (inputBits : List Bool) (numParties : ℕ) (random : ℕ → ℕ → UInt8) :
    Option (List (List Bool)) := do
  let (shares, currentXor) ←
    shareLoop random inputBits.length 1 (numParties - 1) inputBits
  return currentXor :: shares

/-- A round of the loop in `bitsToB64`. -/
def setBit (bits : List Bool) (bytes : List UInt8) (i : ℕ) : List UInt8 :=
  if bits[i]? = some true then
    bytes.modify (i / 8) fun byte => byte ||| (1 <<< UInt8.ofNat (7 - i % 8))
  else bytes

/-- `bytes` in `bitsToB64`. -/
def packBits (bits : List Bool) : List UInt8 :=
  (List.range bits.length).foldl (setBit bits) (List.replicate ((bits.length + 7) / 8) 0)

/-- `btoa` gets the string whose characters are the bytes. -/
def bitsToB64 (bits : List Bool) : List Char := Base64.encode (packBits bits)

example : bitsToB64 (convertBytesToBits [0x66, 0x6F]) = Base64.encode [0x66, 0x6F] := by decide

end Freehold.Web
