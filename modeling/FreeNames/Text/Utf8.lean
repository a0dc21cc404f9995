import FreeNames.Text

/-!
# FreeNames.Text.Utf8

Reading bytes as UTF-8.  A sequence is well formed when its first byte fixes
its length and narrows the second byte, and every later byte is a continuation
byte; this rules out overlong forms, surrogates and code points past U+10FFFF.
A fault says where the well-formed part ends and how many bytes of a sequence
were still good there.
-/

namespace FreeNames.Utf8

/-- Why bytes are not UTF-8. -/
inductive Fault where
  /-- The first `length` bytes from `index` cannot be continued to a character. -/
  | invalid (length index : Nat)
  /-- The bytes end inside a character that starts at `index`. -/
  | incomplete (index : Nat)
deriving DecidableEq, Repr

/-- The wording of a fault. -/
def Fault.message : Fault → String
  | .invalid length index =>
    "invalid utf-8 sequence of " ++ toString length ++ " bytes from index " ++ toString index
  | .incomplete index => "incomplete utf-8 byte sequence from index " ++ toString index

/-- What a first byte announces: how many bytes follow it, and the bounds of
the next one. -/
structure Lead where
  follow : Nat
  least : Nat
  most : Nat

/-- The announcement of a first byte of a longer sequence. -/
def lead? (a : Nat) : Option Lead :=
  if 0xC2 ≤ a && a ≤ 0xDF then some ⟨1, 0x80, 0xBF⟩
  else if a = 0xE0 then some ⟨2, 0xA0, 0xBF⟩
  else if a = 0xED then some ⟨2, 0x80, 0x9F⟩
  else if 0xE1 ≤ a && a ≤ 0xEF then some ⟨2, 0x80, 0xBF⟩
  else if a = 0xF0 then some ⟨3, 0x90, 0xBF⟩
  else if a = 0xF4 then some ⟨3, 0x80, 0x8F⟩
  else if 0xF1 ≤ a && a ≤ 0xF3 then some ⟨3, 0x80, 0xBF⟩
  else none

/-- Whether a byte lies within the bounds its first byte set. -/
def Lead.admits (l : Lead) (b : Nat) : Bool := l.least ≤ b && b ≤ l.most

/-- A byte of the form `10xxxxxx`. -/
def isContinuation (b : Nat) : Bool := 0x80 ≤ b && b ≤ 0xBF

/-- The six low bits of a continuation byte. -/
def low (b : Nat) : Nat := b % 64

/-- Decode bytes of which `index` have been read before. -/
def decodeFrom (index : Nat) : List UInt8 → Except Fault Text
  | [] => .ok []
  | a :: rest =>
    let a := a.toNat
    if a < 0x80 then
      (decodeFrom (index + 1) rest).map (Char.ofNat a :: ·)
    else
      match lead? a with
      | none => .error (.invalid 1 index)
      | some l =>
        match rest with
        | [] => .error (.incomplete index)
        | b :: rest =>
          let b := b.toNat
          if !l.admits b then .error (.invalid 1 index)
          else if l.follow = 1 then
            (decodeFrom (index + 2) rest).map (Char.ofNat (a % 32 * 64 + low b) :: ·)
          else
            match rest with
            | [] => .error (.incomplete index)
            | c :: rest =>
              let c := c.toNat
              if !isContinuation c then .error (.invalid 2 index)
              else if l.follow = 2 then
                let n := (a % 16 * 64 + low b) * 64 + low c
                (decodeFrom (index + 3) rest).map (Char.ofNat n :: ·)
              else
                match rest with
                | [] => .error (.incomplete index)
                | d :: rest =>
                  let d := d.toNat
                  if !isContinuation d then .error (.invalid 3 index)
                  else
                    let n := ((a % 8 * 64 + low b) * 64 + low c) * 64 + low d
                    (decodeFrom (index + 4) rest).map (Char.ofNat n :: ·)

/-- The text that bytes spell in UTF-8. -/
def decode (bytes : List UInt8) : Except Fault Text := decodeFrom 0 bytes

end FreeNames.Utf8
