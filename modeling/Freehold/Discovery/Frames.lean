import Freehold.Discovery.Reading
import Freehold.Foundation.WebSocket

/-!
# The frames of a WebSocket client (`discovery.cpp`)

## Main results

* `frames_wsFrame` — what `send_ws_text` writes is read back text by text.
-/

namespace Freehold.Discovery.Descriptors

open Interaction Interaction.Program

/-! ## The frames that the server writes -/

theorem toNat_byte (n : ℕ) : (byte n).toNat = n % 256 := by
  have hvalid : (n % 256).isValidChar := .inl ((Nat.mod_lt n (by decide)).trans (by decide))
  rw [byte, Char.ofNat, dif_pos hvalid]
  rfl

theorem bigEndian_bytes (n k : ℕ) :
    WebSocket.bigEndian Char.toNat ((List.range k).reverse.map fun i => byte (n / 256 ^ i)) =
      n % 256 ^ k := by
  have hfold := WebSocket.foldl_bytes n k 0
  rw [List.foldl_map] at hfold
  rw [WebSocket.bigEndian, List.foldl_map]
  simp only [toNat_byte]
  rw [hfold, Nat.zero_mul, Nat.zero_add]

/-- A frame without a mask. -/
theorem frame_unmasked {second : Char} {extended text : List Char} (hsecond : second.toNat < 128)
    (hextended : extended.length = WebSocket.extendedSize Char.toNat second)
    (htext : text.length = WebSocket.payloadLength Char.toNat second extended) (rest : List Char) :
    WebSocket.frame Char.toNat (byte 0x81 :: (second :: extended) ++ text ++ rest) =
      some ((1, text), rest) := by
  have hmask : ([] : List Char).length = WebSocket.maskSize Char.toNat second :=
    (if_neg (not_le.mpr hsecond)).symm
  have hframe : WebSocket.frame Char.toNat
      (byte 0x81 :: second :: (extended ++ ([] ++ (text ++ rest)))) = some ((1, text), rest) :=
    WebSocket.frame_append hextended hmask htext rest
  simpa using hframe

/-- A frame of the server is read back whole. -/
theorem frame_wsFrame {text : List Char} (htext : text.length < 2 ^ 31 - 16) (rest : List Char) :
    WebSocket.frame Char.toNat (wsFrame text ++ rest) = some ((1, text), rest) := by
  have hmarks : (byte 126).toNat = 126 ∧ (byte 127).toNat = 127 := by decide
  unfold wsFrame
  dsimp only
  split_ifs with hshort hmiddle
  · have hsecond : (byte text.length).toNat = text.length := by
      rw [toNat_byte]
      omega
    have hsmall : (byte text.length).toNat % 128 < 126 := by omega
    refine frame_unmasked ?_ ?_ ?_ rest
    · omega
    · rw [WebSocket.extendedSize_short hsmall]
      rfl
    · rw [WebSocket.payloadLength_short hsmall]
      omega
  · have htwo : [byte (text.length / 256), byte text.length] =
        (List.range 2).reverse.map fun i => byte (text.length / 256 ^ i) := by
      simp [List.range_succ]
    refine frame_unmasked ?_ ?_ ?_ rest
    · omega
    · rw [WebSocket.extendedSize_two (by rw [hmarks.1])]
      rfl
    · rw [WebSocket.payloadLength_long (by rw [hmarks.1]), htwo, bigEndian_bytes]
      exact (Nat.mod_eq_of_lt hmiddle).symm
  · refine frame_unmasked ?_ ?_ ?_ rest
    · omega
    · rw [WebSocket.extendedSize_eight (by rw [hmarks.2])]
      simp
    · rw [WebSocket.payloadLength_long (by rw [hmarks.2]; decide), bigEndian_bytes]
      exact (Nat.mod_eq_of_lt (by omega)).symm

/-- The frames that the server writes are read back text by text, and nothing is left over. -/
theorem frames_wsFrame (texts : List (List Char)) (h : ∀ text ∈ texts, text.length < 2 ^ 31 - 16) :
    WebSocket.frames Char.toNat (texts.map wsFrame).flatten =
      (texts.map fun text => (1, text), []) :=
  WebSocket.frames_flatten fun text htext rest => frame_wsFrame (h text htext) rest

/-- The second text has its length in two bytes more. -/
theorem frames_wsFrame_demo : WebSocket.frames Char.toNat
    (([['o', 'k'], List.replicate 300 'x', []] : List (List Char)).map wsFrame).flatten =
    ([(1, ['o', 'k']), (1, List.replicate 300 'x'), (1, [])], []) := by
  refine frames_wsFrame [['o', 'k'], List.replicate 300 'x', []] fun text htext => ?_
  have hlength : text.length = 2 ∨ text.length = 300 ∨ text.length = 0 := by
    rcases List.mem_cons.mp htext with rfl | htext
    · exact .inl rfl
    · rcases List.mem_pair.mp htext with rfl | rfl
      · exact .inr (.inl List.length_replicate)
      · exact .inr (.inr rfl)
  omega

end Freehold.Discovery.Descriptors
