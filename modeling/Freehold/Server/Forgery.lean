import Freehold.Server.Lockstep
import Freehold.Server.Records

/-!
# What the tag of a record keeps apart (`tls_smpc.h`)

Where GHASH belongs, the blocks of the ciphertext are XORed. Whoever knows or guesses the plaintext
of a record and has no key can XOR another text of the same length into the body, and what this
does to the sum of the blocks into the tag.

## Main results

- `seals_forge`: the record is then one of the other text.
- `seals_altered_iff`: when it is one although the tag is left as it was.
- `card_forgeries`: both of a record that `JesseQ_TLS_Encrypt` has written, and for how many texts
  the tag can be left.
-/

namespace Freehold.Server

open Interaction Interaction.Program CounterMode Blocks

/-- The record with another text in the place of its plaintext, and its tag. -/
def altered (plaintext forged record : List UInt8) : List UInt8 :=
  record.take 5 ++ xorBytes ((record.drop 5).take plaintext.length) (xorBytes plaintext forged) ++
    record.drop (5 + plaintext.length)

/-- The XOR of the blocks of a text, with zeros behind the last one. -/
def blockSum (text : List UInt8) : List UInt8 := checksum 16 text (blocks 16 text.length)

/-- The record with another text in the place of its plaintext, and the tag to go with it. -/
def forge (plaintext forged record : List UInt8) : List UInt8 :=
  record.take 5 ++ xorBytes ((record.drop 5).take plaintext.length) (xorBytes plaintext forged) ++
    xorBytes (record.drop (5 + plaintext.length)) (xorBytes (blockSum plaintext) (blockSum forged))

variable {F : Bytes 16 → Bytes 16} {nonce : Bytes 12} {plaintext forged record : List UInt8}

theorem parts_append {n : ℕ} {header body tag : List UInt8} (hheader : header.length = 5)
    (hbody : body.length = n) : (header ++ body ++ tag).take 5 = header ∧
      ((header ++ body ++ tag).drop 5).take n = body ∧
      (header ++ body ++ tag).drop (5 + n) = tag := by
  have hfront : (header ++ body).length = 5 + n := by rw [List.length_append, hheader, hbody]
  refine ⟨?_, ?_, by rw [← hfront, List.drop_left]⟩
  · rw [List.append_assoc, ← hheader, List.take_left]
  · rw [List.append_assoc, ← hheader, List.drop_left, ← hbody, List.take_left]

/-- Under the keystream the alteration exchanges the texts. -/
theorem xorBytes_altered {body stream : List UInt8} (hstream : body.length ≤ stream.length)
    (hforged : forged.length = body.length) :
    xorBytes (xorBytes body (xorBytes (xorBytes body stream) forged)) stream = forged := by
  have hself : CounterMode.xor body (CounterMode.xor body (CounterMode.xor stream forged)) =
      CounterMode.xor stream forged := by
    have hlength : (CounterMode.xor stream forged).length ≤ body.length := by
      rw [length_xor, hforged]
      exact Nat.min_le_right _ _
    rw [xor_comm body, xor_comm body]
    exact xor_xor_cancel hlength
  show CounterMode.xor (CounterMode.xor body (CounterMode.xor (CounterMode.xor body stream) forged))
    stream = forged
  rw [xor_assoc body stream, hself, xor_comm stream]
  exact xor_xor_cancel (by rw [hforged]; exact hstream)

theorem length_blockSum (text : List UInt8) : (blockSum text).length = 16 := length_checksum _ _ _

theorem checksum_altered {body : List UInt8} (hbody : body.length = plaintext.length)
    (hforged : forged.length = plaintext.length) :
    checksum 16 (xorBytes body (xorBytes plaintext forged)) (blocks 16 body.length) =
      CounterMode.xor (checksum 16 body (blocks 16 body.length))
        (CounterMode.xor (blockSum plaintext) (blockSum forged)) := by
  have hinner : body.length = (xorBytes plaintext forged).length := by
    rw [length_xorBytes, hforged, hbody, min_self]
  rw [blockSum, blockSum, hforged, ← hbody]
  exact (checksum_xor hinner _).trans (congrArg _ (checksum_xor hforged.symm _))

/-- The record of the other text, but for its tag. -/
theorem seals_xorBytes_iff {hi lo : UInt8} {body tag : List UInt8}
    (hheader : hi.toNat * 256 + lo.toNat = body.length + 16)
    (hplain : xorBytes body (concat (keystream F nonce) (blocks 16 body.length)) = plaintext)
    (hforged : forged.length = body.length) (htag : tag.length = 16) :
    Seals F nonce forged
        ([0x17, 0x03, 0x03, hi, lo] ++ xorBytes body (xorBytes plaintext forged) ++ tag) ↔
      tag = recordTag F nonce (xorBytes body (xorBytes plaintext forged)) := by
  have hstream : body.length ≤ (concat (keystream F nonce) (blocks 16 body.length)).length :=
    length_keystream_ge (by norm_num) length_keystream body
  have haltered : (xorBytes body (xorBytes plaintext forged)).length = body.length := by
    rw [length_xorBytes, length_xorBytes, ← hplain, length_xorBytes, Nat.min_eq_left hstream,
      hforged, min_self, min_self]
  constructor
  · rintro ⟨hi', lo', body', tag', heq, -, -, htaglen, htag'⟩
    obtain ⟨hfront, rfl⟩ := List.append_inj' heq (htag.trans htaglen.symm)
    obtain ⟨-, rfl⟩ := List.append_inj hfront rfl
    exact htag'
  · intro h
    refine ⟨hi, lo, _, tag, rfl, ?_, ?_, htag, h⟩
    · rw [hheader]
      simp only [List.length_append, haltered, htag, List.length_cons, List.length_nil]
      omega
    · rw [haltered, ← hplain]
      exact xorBytes_altered hstream hforged

/-- The tag of the other text. -/
theorem recordTag_altered {body : List UInt8} (hbody : body.length = plaintext.length)
    (hforged : forged.length = plaintext.length) :
    recordTag F nonce (xorBytes body (xorBytes plaintext forged)) =
      xorBytes (recordTag F nonce body) (xorBytes (blockSum plaintext) (blockSum forged)) := by
  have hlength : (xorBytes body (xorBytes plaintext forged)).length = body.length := by
    rw [length_xorBytes, length_xorBytes, hforged, hbody, min_self, min_self]
  rw [recordTag, hlength, checksum_altered hbody hforged]
  exact (xor_assoc _ _ _).symm

/-- The parts of a record. -/
theorem Seals.exists_parts (h : Seals F nonce plaintext record) : ∃ hi lo : UInt8, ∃ body tag,
    record = [0x17, 0x03, 0x03, hi, lo] ++ body ++ tag ∧ body.length = plaintext.length ∧
    hi.toNat * 256 + lo.toNat = body.length + 16 ∧
    xorBytes body (concat (keystream F nonce) (blocks 16 body.length)) = plaintext ∧
    tag.length = 16 ∧ tag = recordTag F nonce body := by
  obtain ⟨hi, lo, body, tag, rfl, hheader, hplain, htaglen, htag⟩ := h
  have hstream : body.length ≤ (concat (keystream F nonce) (blocks 16 body.length)).length :=
    length_keystream_ge (by norm_num) length_keystream body
  refine ⟨hi, lo, body, tag, rfl, ?_, ?_, hplain, htaglen, htag⟩
  · rw [← hplain, length_xorBytes, Nat.min_eq_left hstream]
  · rw [hheader]
    simp only [List.length_append, htaglen, List.length_cons, List.length_nil]
    omega

theorem Seals.length_drop (h : Seals F nonce plaintext record) :
    (record.drop (5 + plaintext.length)).length = 16 := by
  obtain ⟨hi, lo, body, tag, rfl, hbody, -, -, htaglen, -⟩ := h.exists_parts
  have hfive : [0x17, 0x03, 0x03, hi, lo].length = 5 := rfl
  rw [(parts_append hfive hbody).2.2, htaglen]

/-- The alteration of the body, with whatever tag. -/
theorem Seals.iff_of_tag (h : Seals F nonce plaintext record)
    (hforged : forged.length = plaintext.length) {tag : List UInt8} (htag : tag.length = 16) :
    Seals F nonce forged (record.take 5 ++
        xorBytes ((record.drop 5).take plaintext.length) (xorBytes plaintext forged) ++ tag) ↔
      tag = xorBytes (record.drop (5 + plaintext.length))
        (xorBytes (blockSum plaintext) (blockSum forged)) := by
  obtain ⟨hi, lo, body, tag', rfl, hbody, hsize, hplain, -, htag'⟩ := h.exists_parts
  have hfive : [0x17, 0x03, 0x03, hi, lo].length = 5 := rfl
  obtain ⟨hfront, hmiddle, hback⟩ := @parts_append _ _ body tag' hfive hbody
  rw [hfront, hmiddle, hback, seals_xorBytes_iff hsize hplain (hforged.trans hbody.symm) htag,
    recordTag_altered hbody hforged, htag']

/-- Any other text of the same length can take the place of the plaintext. -/
theorem seals_forge (h : Seals F nonce plaintext record)
    (hforged : forged.length = plaintext.length) :
    Seals F nonce forged (forge plaintext forged record) := by
  refine (h.iff_of_tag hforged ?_).mpr rfl
  rw [length_xorBytes, length_xorBytes, h.length_drop, length_blockSum, length_blockSum, min_self,
    min_self]

/-- With the tag of the plaintext, exactly if the blocks of the two texts XOR to the same. -/
theorem seals_altered_iff (h : Seals F nonce plaintext record)
    (hforged : forged.length = plaintext.length) :
    Seals F nonce forged (altered plaintext forged record) ↔
      blockSum forged = blockSum plaintext := by
  have hsum := (length_blockSum plaintext).trans h.length_drop.symm
  have hsum' := (length_blockSum forged).trans h.length_drop.symm
  rw [altered, h.iff_of_tag hforged h.length_drop, eq_comm]
  exact xor_xor_eq_iff hsum hsum'

/-! ## The records of a session -/

/-- Whatever session it is: what stands in the record of a text that `JesseQ_TLS_Encrypt` has
written can be exchanged for any other text of the same length, if the tag is changed with it. If
it is not, it can exactly if the blocks of the two XOR to the same, and so for as many texts as
there are with 16 bytes less. -/
theorem card_forgeries (env : Env) (m : Machine) (plaintext out ciphertext : List UInt8)
    (hresult : ((jesseQTlsEncrypt .alice plaintext out).run (serve env) m).result = .ok ciphertext)
    (hlength : plaintext.length + 16 < 2 ^ 16) :
    let F := aesBlock env (tlsOf m).clientWriteKeyShare
    let record := ciphertext.take (plaintext.length + 21)
    (∀ forged : List UInt8, forged.length = plaintext.length →
      Seals F (nonceOf (tlsOf m)) forged (forge plaintext forged record) ∧
      (Seals F (nonceOf (tlsOf m)) forged (altered plaintext forged record) ↔
        blockSum forged = blockSum plaintext)) ∧
    Nat.card {forged : List UInt8 // forged.length = plaintext.length ∧
        Seals F (nonceOf (tlsOf m)) forged (altered plaintext forged record)} =
      256 ^ (plaintext.length - 16) := by
  intro F record
  have hciphertext : ciphertext = memcpy out 0 (nextSealed env (tlsOf m) plaintext) := by
    rcases jesseQTlsEncrypt_cases env m plaintext out with ⟨⟨e, herror⟩, -⟩ |
      ⟨⟨ciphertext', hok, hciphertext', -⟩, -⟩
    · cases hresult.symm.trans herror
    · cases hresult.symm.trans hok
      exact hciphertext'
  have hrecord : record = sealRecord F (nonceOf (tlsOf m)) plaintext := by
    have hlen : (nextSealed env (tlsOf m) plaintext).length = plaintext.length + 21 :=
      length_sealRecord plaintext
    show ciphertext.take (plaintext.length + 21) = _
    rw [hciphertext, memcpy_zero, ← hlen, List.take_left]
    rfl
  have hseals : Seals F (nonceOf (tlsOf m)) plaintext record := hrecord ▸ seals_sealRecord hlength
  refine ⟨fun forged hforged => ⟨seals_forge hseals hforged, seals_altered_iff hseals hforged⟩, ?_⟩
  rw [← card_checksum_eq (by norm_num) plaintext]
  refine Nat.card_congr (Equiv.subtypeEquivRight fun forged => and_congr_right fun hforged => ?_)
  rw [seals_altered_iff hseals hforged, blockSum, blockSum, hforged]

/-- Of a text of two blocks the blocks can be exchanged, and with the tag anything else. -/
theorem card_forgeries_demo : ∃ ciphertext,
    ((jesseQTlsEncrypt .alice (List.replicate 16 65 ++ List.replicate 16 66) []).run
      (serve (demoEnv .alice [7])) ⟨Host.start, none⟩).result = .ok ciphertext ∧
    Seals (aesBlock (demoEnv .alice [7]) (tlsOf ⟨Host.start, none⟩).clientWriteKeyShare)
      (nonceOf (tlsOf ⟨Host.start, none⟩)) (List.replicate 16 66 ++ List.replicate 16 65)
      (altered (List.replicate 16 65 ++ List.replicate 16 66)
        (List.replicate 16 66 ++ List.replicate 16 65) (ciphertext.take 53)) ∧
    Seals (aesBlock (demoEnv .alice [7]) (tlsOf ⟨Host.start, none⟩).clientWriteKeyShare)
      (nonceOf (tlsOf ⟨Host.start, none⟩)) (List.replicate 32 67)
      (forge (List.replicate 16 65 ++ List.replicate 16 66) (List.replicate 32 67)
        (ciphertext.take 53)) := by
  obtain ⟨⟨ciphertext, hresult, -⟩, -⟩ := jesseQTlsEncrypt_issues (demoEnv_aesInstalled .alice [7])
    .alice (List.replicate 16 65 ++ List.replicate 16 66) [] ⟨Host.start, none⟩ trivial
  have hforgeries := (card_forgeries _ _ _ [] ciphertext hresult (by decide)).1
  exact ⟨ciphertext, hresult, (hforgeries _ (by decide)).2.mpr (by decide),
    (hforgeries _ (by decide)).1⟩

end Freehold.Server
