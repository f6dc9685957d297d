namespace InodeVolume.Utf8

def bytes (s : String) : List UInt8 :=
  s.toList.flatMap String.utf8EncodeChar

-- A character of which some bytes are still to come. The next one has to lie in `low ..= high`;
-- those after it are ordinary continuation bytes.
structure Pending where
  later : Nat
  value : Nat
  low   : Nat
  high  : Nat
  deriving DecidableEq, Repr

-- What the first byte of a character leaves to come: the bounds shut out long forms of short
-- characters, surrogates, and everything above the last code point.
def lead? (b : Nat) : Option Pending :=
  if 0xC2 ≤ b ∧ b ≤ 0xDF then some ⟨0, b - 0xC0, 0x80, 0xBF⟩
  else if b = 0xE0 then some ⟨1, 0, 0xA0, 0xBF⟩
  else if b = 0xED then some ⟨1, 0xD, 0x80, 0x9F⟩
  else if 0xE1 ≤ b ∧ b ≤ 0xEF then some ⟨1, b - 0xE0, 0x80, 0xBF⟩
  else if b = 0xF0 then some ⟨2, 0, 0x90, 0xBF⟩
  else if 0xF1 ≤ b ∧ b ≤ 0xF3 then some ⟨2, b - 0xF0, 0x80, 0xBF⟩
  else if b = 0xF4 then some ⟨2, 4, 0x80, 0x8F⟩
  else none

abbrev Item := Option Char

def start (b : Nat) : List Item × Option Pending :=
  if b < 0x80 then ([some (Char.ofNat b)], none)
  else match lead? b with
    | some p => ([], some p)
    | none   => ([none], none)

def step : Option Pending → Nat → List Item × Option Pending
  | none, b => start b
  | some p, b =>
    if p.low ≤ b ∧ b ≤ p.high then
      let value := p.value * 64 + (b - 0x80)
      match p.later with
      | 0     => ([some (Char.ofNat value)], none)
      | k + 1 => ([], some ⟨k, value, 0x80, 0xBF⟩)
    else
      -- `b` does not belong to the character before it
      let (items, next) := start b
      (none :: items, next)

def items : Option Pending → List UInt8 → List Item
  | none, []       => []
  | some _, []     => [none]
  | state, b :: bs =>
    let (found, next) := step state b.toNat
    found ++ items next bs

def lossy (bs : List UInt8) : String :=
  String.ofList ((items none bs).map (·.getD '\uFFFD'))

def decode? (bs : List UInt8) : Option String :=
  ((items none bs).mapM id).map String.ofList

end InodeVolume.Utf8
