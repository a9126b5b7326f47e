/-!
# Spans of pattern text

A `Span` says where in the pattern something stands: a half-open range of
byte offsets into the UTF-8 encoding. Offsets are 32-bit words, so a span
made from larger offsets keeps their low 32 bits only
(`Span.ofOffsets`); for every pattern shorter than `2 ^ 32` bytes nothing
is lost.
-/

namespace Regexp

/-- A half-open range of byte offsets into a pattern. -/
structure Span where
  /-- The offset of the first byte. -/
  start : UInt32
  /-- The offset just past the last byte. -/
  stop : UInt32
deriving DecidableEq, Repr

namespace Span

/-- The span from one byte offset to another, each reduced modulo
`2 ^ 32`. -/
def ofOffsets (start stop : Nat) : Span :=
  ⟨start.toUInt32, stop.toUInt32⟩

/-- The least span that covers both `a` and `b`. -/
def cover (a b : Span) : Span :=
  ⟨min a.start b.start, max a.stop b.stop⟩

/-- The two offsets as natural numbers. -/
def offsets (a : Span) : Nat × Nat :=
  (a.start.toNat, a.stop.toNat)

/-- Whether the span covers no byte. -/
def isEmpty (a : Span) : Bool :=
  a.start == a.stop

@[simp] theorem start_cover (a b : Span) : (a.cover b).start = min a.start b.start := rfl

@[simp] theorem stop_cover (a b : Span) : (a.cover b).stop = max a.stop b.stop := rfl

@[simp] theorem isEmpty_iff {a : Span} : a.isEmpty = true ↔ a.start = a.stop := by
  simp [isEmpty]

/-- **Offsets below `2 ^ 32` are kept**. -/
theorem offsets_ofOffsets {start stop : Nat} (h₁ : start < UInt32.size)
    (h₂ : stop < UInt32.size) :
    (ofOffsets start stop).offsets = (start, stop) :=
  Prod.ext (UInt32.toNat_ofNat_of_lt' h₁) (UInt32.toNat_ofNat_of_lt' h₂)

end Span

end Regexp
