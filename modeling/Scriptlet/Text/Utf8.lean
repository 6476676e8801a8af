/-
  Decoding UTF-8.

  Key declarations include:
    * `Utf8.Fault`
    * `Utf8.decode`

  Only shortest encodings of scalar values are well formed.
  A fault tells where the well-formed text ends, and how
  many bytes there start a well-formed sequence.
-/

namespace Scriptlet

namespace Utf8

inductive Fault where
  | invalid (start : Nat) (length : Nat)
  | incomplete (start : Nat)
  deriving DecidableEq, Repr

def Fault.message : Fault → String
  | .invalid start length =>
      "invalid utf-8 sequence of " ++ toString length ++ " bytes from index " ++ toString start
  | .incomplete start =>
      "incomplete utf-8 byte sequence from index " ++ toString start

/- A byte within bounds. -/
def isBetween (low high byte : UInt8) : Bool := low ≤ byte && byte ≤ high

/- A byte that continues a sequence. -/
def isContinuation : UInt8 → Bool := isBetween 0x80 0xbf

/-
  The second bytes of three-byte sequences, without long
  forms and surrogates.
-/
def isSecondOfThree (first second : UInt8) : Bool :=
  if first = 0xe0 then isBetween 0xa0 0xbf second
  else if first = 0xed then isBetween 0x80 0x9f second
  else isContinuation second

/-
  The second bytes of four-byte sequences, without long
  forms and values past the last scalar.
-/
def isSecondOfFour (first second : UInt8) : Bool :=
  if first = 0xf0 then isBetween 0x90 0xbf second
  else if first = 0xf4 then isBetween 0x80 0x8f second
  else isContinuation second

/- The low six bits of a byte. -/
def payload (byte : UInt8) : Nat := byte.toNat % 64

/- Decode the bytes from index `start` on. -/
def decodeFrom (start : Nat) :
    List UInt8 → Except Fault (List Char)
  | [] => .ok []
  | a :: rest =>
      if a < 0x80 then do
        let others ← decodeFrom (start + 1) rest
        return .ofNat a.toNat :: others
      else if isBetween 0xc2 0xdf a then
        match rest with
        | [] => .error (.incomplete start)
        | b :: rest =>
            if isContinuation b then do
              let others ← decodeFrom (start + 2) rest
              let code := a.toNat % 32 * 64 + payload b
              return .ofNat code :: others
            else .error (.invalid start 1)
      else if isBetween 0xe0 0xef a then
        match rest with
        | [] => .error (.incomplete start)
        | b :: rest =>
            if isSecondOfThree a b then
              match rest with
              | [] => .error (.incomplete start)
              | c :: rest =>
                  if isContinuation c then do
                    let others ← decodeFrom (start + 3) rest
                    let code :=
                      (a.toNat % 16 * 64 + payload b) * 64 + payload c
                    return .ofNat code :: others
                  else .error (.invalid start 2)
            else .error (.invalid start 1)
      else if isBetween 0xf0 0xf4 a then
        match rest with
        | [] => .error (.incomplete start)
        | b :: rest =>
            if isSecondOfFour a b then
              match rest with
              | [] => .error (.incomplete start)
              | c :: rest =>
                  if isContinuation c then
                    match rest with
                    | [] => .error (.incomplete start)
                    | d :: rest =>
                        if isContinuation d then do
                          let others ← decodeFrom (start + 4) rest
                          let code :=
                            ((a.toNat % 8 * 64 + payload b) * 64 + payload c) * 64 + payload d
                          return .ofNat code :: others
                        else .error (.invalid start 3)
                  else .error (.invalid start 2)
            else .error (.invalid start 1)
      else .error (.invalid start 1)

/- Decode a whole text. -/
def decode (bytes : List UInt8) : Except Fault String := do
  let chars ← decodeFrom 0 bytes
  return String.ofList chars

end Utf8

end Scriptlet
