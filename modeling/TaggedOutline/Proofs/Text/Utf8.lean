import Mathlib.Data.List.Forall2
import TaggedOutline.Text.Utf8

/-!
# Encoded texts are decoded to themselves

The lead byte of an encoded character says how many bytes follow and admits them (`lead?_one` to
`lead?_four`), and each of these adds six bits to the value of the character
(`continuation_append`). So a character is read from its bytes whatever comes after them
(`decodeChar_encodeChar`), and a text character by character.
-/

namespace TaggedOutline.Text.Utf8

theorem toNat_toUInt8 {n : Nat} (h : n < 256) : n.toUInt8.toNat = n := Nat.mod_eq_of_lt h

/-- Six bits whose byte is in a range of bytes that may follow. -/
def Follows (range : Nat × Nat) (k : Nat) : Prop :=
  k < 64 ∧ range.1 ≤ 0x80 + k ∧ 0x80 + k ≤ range.2

/-- Bytes that may follow add their six bits to the value in turn. -/
theorem continuation_append {ranges : List (Nat × Nat)} {ks : List Nat}
    (h : List.Forall₂ Follows ranges ks) (seen : List UInt8) (value : Nat) (rest : List UInt8) :
    continuation seen value ranges (ks.map (fun k => (0x80 + k).toUInt8) ++ rest) =
      .ok (ks.foldl (fun value k => value * 64 + k) value, rest) := by
  induction h generalizing seen value with
  | nil => rw [List.map_nil, List.nil_append, continuation, List.foldl_nil]
  | @cons range k ranges ks hk _ ih =>
    obtain ⟨lo, hi⟩ := range
    obtain ⟨hlt, hlo, hhi⟩ := hk
    have hbyte : (0x80 + k).toUInt8.toNat = 0x80 + k := toNat_toUInt8 (by omega)
    rw [List.map_cons, List.cons_append, continuation, hbyte, if_pos (by simpa using ⟨hlo, hhi⟩),
      Nat.add_sub_cancel_left, ih, List.foldl_cons]

/-- A character is read from a lead byte and bytes that may follow it. -/
theorem decodeChar_append (value : Nat) (ranges : List (Nat × Nat)) (ks : List Nat) {b : UInt8}
    {c : Char} (hlead : lead? b = some (value, ranges)) (hks : List.Forall₂ Follows ranges ks)
    (hc : ks.foldl (fun value k => value * 64 + k) value = c.toNat) (rest : List UInt8) :
    decodeChar b (ks.map (fun k => (0x80 + k).toUInt8) ++ rest) = .ok (c, rest) := by
  unfold decodeChar
  rw [hlead]
  simp only
  rw [continuation_append hks, hc]
  exact congrArg (fun c => Except.ok (c, rest)) (Char.ofNat_toNat c)

/-! ## Lead bytes -/

theorem lead?_one {n : Nat} (h : n < 0x80) : lead? n.toUInt8 = some (n, []) := by
  unfold lead?
  simp only [toNat_toUInt8 (show n < 256 by omega)]
  rw [if_pos h]

theorem lead?_two {n : Nat} (hlow : 2 ≤ n) (hhigh : n < 0x20) :
    lead? (0xC0 + n).toUInt8 = some (n, [(0x80, 0xBF)]) := by
  unfold lead?
  simp only [toNat_toUInt8 (show 0xC0 + n < 256 by omega)]
  rw [if_neg (by omega), if_neg (by omega), if_pos (by omega), Nat.add_sub_cancel_left]

/-- After the least lead byte of three, overlong forms are left out, and after one surrogates. -/
theorem lead?_three {n : Nat} (h : n < 0x10) :
    lead? (0xE0 + n).toUInt8 = some (n,
      [(if n = 0 then 0xA0 else 0x80, if n = 0xD then 0x9F else 0xBF), (0x80, 0xBF)]) := by
  unfold lead?
  simp only [toNat_toUInt8 (show 0xE0 + n < 256 by omega)]
  rw [if_neg (by omega), if_neg (by omega), if_neg (by omega), if_pos (by omega),
    Nat.add_sub_cancel_left]
  simp only [beq_iff_eq, Nat.add_eq_left]
  rw [if_congr (show 0xE0 + n = 0xED ↔ n = 0xD by omega) rfl rfl]

/-- After the least lead byte of four, overlong forms are left out, and after the greatest what is
above U+10FFFF. -/
theorem lead?_four {n : Nat} (h : n < 5) :
    lead? (0xF0 + n).toUInt8 = some (n,
      [(if n = 0 then 0x90 else 0x80, if n = 4 then 0x8F else 0xBF), (0x80, 0xBF),
        (0x80, 0xBF)]) := by
  unfold lead?
  simp only [toNat_toUInt8 (show 0xF0 + n < 256 by omega)]
  rw [if_neg (by omega), if_neg (by omega), if_neg (by omega), if_neg (by omega),
    if_pos (by omega), Nat.add_sub_cancel_left]
  simp only [beq_iff_eq, Nat.add_eq_left]
  rw [if_congr (show 0xF0 + n = 0xF4 ↔ n = 4 by omega) rfl rfl]

/-! ## Characters -/

theorem follows_any (n : Nat) : Follows (0x80, 0xBF) (n % 64) := by
  unfold Follows
  omega

/-- Six bits follow in a range whose ends are raised and lowered in one case each. -/
theorem follows_ite {p q : Prop} [Decidable p] [Decidable q] {k low high : Nat} (hk : k < 64)
    (hlow : p → low ≤ 0x80 + k) (hhigh : q → 0x80 + k ≤ high) :
    Follows (if p then low else 0x80, if q then high else 0xBF) k := by
  refine ⟨hk, ?_, ?_⟩
  · show (if p then low else 0x80) ≤ 0x80 + k
    split
    · next h => exact hlow h
    · omega
  · show 0x80 + k ≤ if q then high else 0xBF
    split
    · next h => exact hhigh h
    · omega

/-- Code points are below the surrogates, or above them and at most U+10FFFF. -/
theorem toNat_cases (c : Char) : c.toNat < 0xD800 ∨ 0xDFFF < c.toNat ∧ c.toNat < 0x110000 :=
  c.valid

/-- The bytes of a character are read as this character, whatever comes after them. -/
theorem decodeChar_encodeChar (c : Char) (rest : List UInt8) :
    ∃ b bs, encodeChar c = b :: bs ∧ decodeChar b (bs ++ rest) = .ok (c, rest) := by
  have hvalid := toNat_cases c
  unfold encodeChar
  simp only
  generalize hn : c.toNat = n at hvalid
  split
  · next h => exact ⟨_, _, rfl, decodeChar_append n [] [] (lead?_one h) .nil hn.symm rest⟩
  split
  · next h₁ h₂ =>
    refine ⟨_, _, rfl, decodeChar_append (n / 64) _ [n / 1 % 64]
      (lead?_two (by omega) (by omega)) (.cons (follows_any _) .nil) ?_ rest⟩
    simp only [List.foldl_cons, List.foldl_nil]
    omega
  split
  · next h₁ h₂ h₃ =>
    have hfirst : Follows (if n / 4096 = 0 then 0xA0 else 0x80,
        if n / 4096 = 0xD then 0x9F else 0xBF) (n / 64 % 64) :=
      follows_ite (by omega) (by omega) (by omega)
    refine ⟨_, _, rfl, decodeChar_append (n / 4096) _ [n / 64 % 64, n / 1 % 64]
      (lead?_three (by omega)) (.cons hfirst (.cons (follows_any _) .nil)) ?_ rest⟩
    simp only [List.foldl_cons, List.foldl_nil]
    omega
  · next h₁ h₂ h₃ =>
    have hfirst : Follows (if n / 262144 = 0 then 0x90 else 0x80,
        if n / 262144 = 4 then 0x8F else 0xBF) (n / 4096 % 64) :=
      follows_ite (by omega) (by omega) (by omega)
    refine ⟨_, _, rfl, decodeChar_append (n / 262144) _ [n / 4096 % 64, n / 64 % 64, n / 1 % 64]
      (lead?_four (by omega)) (.cons hfirst (.cons (follows_any _) (.cons (follows_any _) .nil)))
      ?_ rest⟩
    simp only [List.foldl_cons, List.foldl_nil]
    omega

/-! ## Texts -/

theorem decodeFrom_encode (position : Nat) (t : Text) : decodeFrom position (encode t) = .ok t := by
  induction t generalizing position with
  | nil =>
    rw [encode, List.flatMap_nil, decodeFrom]
  | cons c t ih =>
    obtain ⟨b, bs, hbytes, hread⟩ := decodeChar_encodeChar c (encode t)
    have hencode : encode (c :: t) = b :: (bs ++ encode t) := by
      rw [encode, List.flatMap_cons, hbytes]
      rfl
    rw [hencode, decodeFrom]
    split
    · next herror =>
      rw [hread] at herror
      exact absurd herror (by simp)
    · next c' rest hok =>
      rw [hread, Except.ok.injEq, Prod.mk.injEq] at hok
      obtain ⟨rfl, rfl⟩ := hok
      rw [ih]
      rfl

/-- Every text is read from its bytes. -/
theorem decode_encode_text (t : Text) : decode (encode t) = .ok t := decodeFrom_encode 0 t

end TaggedOutline.Text.Utf8
