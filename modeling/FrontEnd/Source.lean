/-!
# Places in source text

A place is a byte offset into the UTF-8 text of a named file; a span is the text between two places.
Offsets are words of 32 bits. In a file of 4 GiB or more they wrap.
-/
namespace FrontEnd

instance natOfOffset : Coe UInt32 Nat := ⟨UInt32.toNat⟩

/-- A number that does not fit in 32 bits is taken modulo `2 ^ 32`. -/
instance offsetOfNat : Coe Nat UInt32 := ⟨Nat.toUInt32⟩

/-- A byte offset into a named source file. -/
structure Position where
  offset : UInt32
  file : String
deriving DecidableEq

namespace Position

def origin (file : String) : Position := ⟨0, file⟩

/-- The place behind the first `n` bytes of a file. -/
def ofByte (n : Nat) (file : String) : Position := ⟨n, file⟩

def display (p : Position) : String := s!"{p.file}:{p.offset}"

variable {m n : Nat} (hn : n < UInt32.size) (file : String)
include hn

theorem toNat_offset_ofByte : (ofByte n file).offset.toNat = n := UInt32.toNat_ofNat_of_lt' hn

theorem ofByte_le_ofByte (h : m ≤ n) : (ofByte m file).offset ≤ (ofByte n file).offset := by
  rw [UInt32.le_iff_toNat_le, toNat_offset_ofByte hn, toNat_offset_ofByte (Nat.lt_of_le_of_lt h hn)]
  exact h

theorem ofByte_lt_ofByte (h : m < n) : (ofByte m file).offset < (ofByte n file).offset := by
  rw [UInt32.lt_iff_toNat_lt, toNat_offset_ofByte hn, toNat_offset_ofByte (Nat.lt_trans h hn)]
  exact h

end Position

/-- The text from `start` up to, but not including, `stop`. -/
structure Span where
  start : Position
  stop : Position
deriving DecidableEq

def Span.to (s t : Span) : Span := ⟨s.start, t.stop⟩

@[simp] theorem Span.to_self (s : Span) : s.to s = s := rfl

@[simp] theorem Span.to_to (s t u : Span) : (s.to t).to u = s.to u := rfl

end FrontEnd
