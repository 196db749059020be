import TaggedOutline.Text.Basic

/-!
# UTF-8

A byte sequence is decoded one character at a time. The lead byte fixes which bytes may follow it,
so that overlong forms, surrogates and code points above U+10FFFF have no encoding. The first byte
that cannot be read ends decoding with a fault that says where and why.
-/

namespace TaggedOutline.Text.Utf8

/-- Why bytes are not the encoding of a character. -/
inductive Reason
  | invalidStart
  | invalidContinuation
  | unexpectedEnd
  deriving DecidableEq, Repr

/-- Bytes that could not be decoded: where they start, the bytes and the reason. -/
structure Fault where
  position : Nat
  bytes : List UInt8
  reason : Reason
  deriving DecidableEq, Repr

/-- The values that a lead byte contributes and the inclusive ranges of the bytes that follow. -/
def lead? (b : UInt8) : Option (Nat × List (Nat × Nat)) :=
  let n := b.toNat
  let cont := (0x80, 0xBF)
  if n < 0x80 then some (n, [])
  else if n < 0xC2 then none
  else if n < 0xE0 then some (n - 0xC0, [cont])
  else if n < 0xF0 then
    some (n - 0xE0, [(if n == 0xE0 then 0xA0 else 0x80, if n == 0xED then 0x9F else 0xBF), cont])
  else if n < 0xF5 then
    some (n - 0xF0,
      [(if n == 0xF0 then 0x90 else 0x80, if n == 0xF4 then 0x8F else 0xBF), cont, cont])
  else none

/-- Reads the bytes that follow a lead byte. `seen` holds the bytes of the character so far, last
first. -/
def continuation (seen : List UInt8) (value : Nat) :
    List (Nat × Nat) → List UInt8 → Except (List UInt8 × Reason) (Nat × List UInt8)
  | [], rest => .ok (value, rest)
  | _ :: _, [] => .error (seen.reverse, .unexpectedEnd)
  | (lo, hi) :: ranges, b :: rest =>
    if lo ≤ b.toNat && b.toNat ≤ hi then
      continuation (b :: seen) (value * 64 + (b.toNat - 0x80)) ranges rest
    else .error (seen.reverse, .invalidContinuation)

/-- One character and the bytes after it. -/
def decodeChar (b : UInt8) (rest : List UInt8) :
    Except (List UInt8 × Reason) (Char × List UInt8) :=
  match lead? b with
  | none => .error ([b], .invalidStart)
  | some (value, ranges) =>
    (continuation [b] value ranges rest).map fun (n, rest) => (Char.ofNat n, rest)

theorem length_of_continuation {seen : List UInt8} {value n : Nat} {ranges : List (Nat × Nat)}
    {bs rest : List UInt8} (h : continuation seen value ranges bs = .ok (n, rest)) :
    rest.length ≤ bs.length := by
  fun_induction continuation seen value ranges bs with
  | case1 => simp_all
  | case2 => simp at h
  | case3 seen value lo hi ranges b bs hb ih => exact Nat.le_succ_of_le (ih h)
  | case4 => simp at h

theorem length_of_decodeChar {b : UInt8} {bs rest : List UInt8} {c : Char}
    (h : decodeChar b bs = .ok (c, rest)) : rest.length ≤ bs.length := by
  unfold decodeChar at h
  split at h
  · simp at h
  · rename_i value ranges _
    cases hc : continuation [b] value ranges bs with
    | error e => simp [hc, Except.map] at h
    | ok p =>
      obtain ⟨n, r⟩ := p
      simp only [hc, Except.map, Except.ok.injEq, Prod.mk.injEq] at h
      exact h.2 ▸ length_of_continuation hc

/-- Decodes from the byte at `position` on. -/
def decodeFrom (position : Nat) : List UInt8 → Except Fault Text
  | [] => .ok []
  | b :: bs =>
    match h : decodeChar b bs with
    | .error (bytes, reason) => .error ⟨position, bytes, reason⟩
    | .ok (c, rest) =>
      (decodeFrom (position + (bs.length + 1 - rest.length)) rest).map (c :: ·)
  termination_by bs => bs.length
  decreasing_by
    have := length_of_decodeChar h
    simp only [List.length_cons]
    omega

/-- The text that the bytes encode. -/
def decode (bytes : List UInt8) : Except Fault Text := decodeFrom 0 bytes

/-- The bytes of a character. -/
def encodeChar (c : Char) : List UInt8 :=
  let n := c.toNat
  let cont (k : Nat) : UInt8 := (0x80 + n / k % 64).toUInt8
  if n < 0x80 then [n.toUInt8]
  else if n < 0x800 then [(0xC0 + n / 64).toUInt8, cont 1]
  else if n < 0x10000 then [(0xE0 + n / 4096).toUInt8, cont 64, cont 1]
  else [(0xF0 + n / 262144).toUInt8, cont 4096, cont 64, cont 1]

/-- The bytes of a text. -/
def encode (t : Text) : List UInt8 := t.flatMap encodeChar

def Reason.text : Reason → String
  | .invalidStart => "invalid start byte"
  | .invalidContinuation => "invalid continuation byte"
  | .unexpectedEnd => "unexpected end of data"

/-- A fault in words: one byte is shown by its value, several by their positions. -/
def Fault.message (fault : Fault) : String :=
  let place := match fault.bytes with
    | [b] =>
      let digits := Nat.toDigits 16 b.toNat
      "byte 0x" ++ String.ofList (List.replicate (2 - digits.length) '0' ++ digits) ++
        " in position " ++ toString fault.position
    | bytes =>
      "bytes in position " ++ toString fault.position ++ "-" ++
        toString (fault.position + bytes.length - 1)
  "'utf-8' codec can't decode " ++ place ++ ": " ++ fault.reason.text

end TaggedOutline.Text.Utf8
