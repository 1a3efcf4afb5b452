import PegMachine.Text.Escape

/-!
# Sets of bytes

* `ByteSet`: a set of byte values, one bit each, so equal sets are equal data.
* `ByteSet.runs`: the maximal runs of consecutive members.
* `ByteSet.render`: the written form of a set, its runs in ascending order.
-/

namespace PegMachine

/-- A set of byte values: bit `i` tells whether byte `i` is a member. -/
structure ByteSet where
  bits : BitVec 256
deriving DecidableEq

namespace ByteSet

/-- Membership. -/
def contains (s : ByteSet) (b : UInt8) : Bool :=
  s.bits.getLsbD b.toNat

instance : Membership UInt8 ByteSet := ⟨fun s b => s.contains b = true⟩

theorem mem_iff {s : ByteSet} {b : UInt8} : b ∈ s ↔ s.contains b = true := Iff.rfl

@[ext]
theorem ext {s t : ByteSet} (h : ∀ b, s.contains b = t.contains b) : s = t := by
  obtain ⟨s⟩ := s
  obtain ⟨t⟩ := t
  congr
  apply BitVec.eq_of_getLsbD_eq
  intro i hi
  have hb := h (UInt8.ofNat i)
  rw [contains, contains, UInt8.toNat_ofNat_of_lt' hi] at hb
  exact hb

/-- The set without members. -/
def empty : ByteSet := ⟨0⟩

/-- The set of all bytes. -/
def full : ByteSet := ⟨BitVec.allOnes 256⟩

/-- The set with one more member. -/
def insert (s : ByteSet) (b : UInt8) : ByteSet :=
  ⟨s.bits ||| BitVec.twoPow 256 b.toNat⟩

/-- The set of the bytes of a list. -/
def ofList (bytes : List UInt8) : ByteSet :=
  bytes.foldl insert empty

/-- All bytes in ascending order. -/
def allBytes : List UInt8 :=
  (List.range 256).map Nat.toUInt8

/-- The bytes from `lo` to `hi`, both included; empty when `hi` is below `lo`. -/
def range (lo hi : UInt8) : ByteSet :=
  ofList (allBytes.filter fun b => lo ≤ b && b ≤ hi)

/-- The bytes in either set. -/
def union (s t : ByteSet) : ByteSet := ⟨s.bits ||| t.bits⟩

/-- The bytes of the first set that are not in the second. -/
def diff (s t : ByteSet) : ByteSet := ⟨s.bits &&& ~~~ t.bits⟩

/-- Whether no byte is in both sets. -/
def isDisjoint (s t : ByteSet) : Bool := s.bits &&& t.bits == 0

/-- Whether the set has no member. -/
def isEmpty (s : ByteSet) : Bool := s.bits == 0

/-- The members in ascending order. -/
def toList (s : ByteSet) : List UInt8 :=
  allBytes.filter s.contains

/-- The only member, if there is exactly one. -/
def single? (s : ByteSet) : Option UInt8 :=
  match s.toList with
  | [b] => some b
  | _ => none

/-! ## Members of the sets built above -/

@[simp]
theorem contains_empty (b : UInt8) : empty.contains b = false := by
  simp [contains, empty]

@[simp]
theorem contains_full (b : UInt8) : full.contains b = true := by
  rw [contains, full, BitVec.getLsbD_allOnes]
  exact decide_eq_true b.toNat_lt

@[simp]
theorem contains_insert (s : ByteSet) (b c : UInt8) :
    (s.insert b).contains c = (decide (c = b) || s.contains c) := by
  have hc : c.toNat < 256 := c.toNat_lt
  simp [contains, insert, hc, Bool.or_comm, ← UInt8.toNat_inj, eq_comm]

theorem contains_foldl_insert (bytes : List UInt8) (s : ByteSet) (b : UInt8) :
    (bytes.foldl insert s).contains b = (decide (b ∈ bytes) || s.contains b) := by
  induction bytes generalizing s with
  | nil => simp
  | cons c rest ih => simp [ih, Bool.or_assoc, Bool.or_left_comm]

@[simp]
theorem contains_ofList (bytes : List UInt8) (b : UInt8) :
    (ofList bytes).contains b = decide (b ∈ bytes) := by
  simp [ofList, contains_foldl_insert]

@[simp]
theorem mem_allBytes (b : UInt8) : b ∈ allBytes := by
  simp only [allBytes, List.mem_map, List.mem_range]
  exact ⟨b.toNat, b.toNat_lt, by simp⟩

@[simp]
theorem contains_range (lo hi b : UInt8) :
    (range lo hi).contains b = (decide (lo ≤ b) && decide (b ≤ hi)) := by
  simp [range]

@[simp]
theorem contains_union (s t : ByteSet) (b : UInt8) :
    (s.union t).contains b = (s.contains b || t.contains b) := by
  simp [contains, union]

@[simp]
theorem contains_diff (s t : ByteSet) (b : UInt8) :
    (s.diff t).contains b = (s.contains b && !t.contains b) := by
  have hb : b.toNat < 256 := b.toNat_lt
  simp [contains, diff, hb]

@[simp]
theorem mem_toList {s : ByteSet} {b : UInt8} : b ∈ s.toList ↔ s.contains b = true := by
  simp [toList]

theorem isEmpty_iff {s : ByteSet} : s.isEmpty = true ↔ s = empty := by
  obtain ⟨s⟩ := s
  simp [isEmpty, empty]

theorem isDisjoint_iff {s t : ByteSet} :
    s.isDisjoint t = true ↔ ∀ b, s.contains b = true → t.contains b = false := by
  have key : s.isDisjoint t = true ↔ (⟨s.bits &&& t.bits⟩ : ByteSet) = empty := by
    simp [isDisjoint, empty]
  rw [key]
  constructor
  · intro h b hs
    have hb := congrArg (fun u => contains u b) h
    simpa [contains, empty, show s.bits.getLsbD b.toNat = true from hs] using hb
  · intro h
    ext b
    have hb := h b
    simp only [contains] at hb ⊢
    cases hs : s.bits.getLsbD b.toNat <;> simp_all [empty]

/-! ## Written form -/

/-- The last byte of the run of members that goes on from byte `i`. -/
def runStop (s : ByteSet) (i : Nat) : Nat :=
  if i < 255 ∧ s.contains (i.toUInt8 + 1) then s.runStop (i + 1) else i
termination_by 255 - i

theorem le_runStop (s : ByteSet) (i : Nat) : i ≤ s.runStop i := by
  fun_induction runStop s i <;> omega

/-- The maximal runs of consecutive members from byte `i` on. -/
def runsFrom (s : ByteSet) (i : Nat) : List (UInt8 × UInt8) :=
  if i ≤ 255 then
    if s.contains i.toUInt8 then
      (i.toUInt8, (s.runStop i).toUInt8) :: s.runsFrom (s.runStop i + 1)
    else s.runsFrom (i + 1)
  else []
termination_by 256 - i
decreasing_by
  · have := s.le_runStop i
    omega
  · omega

/-- The maximal runs of consecutive members, ascending, each by its first and last byte. -/
def runs (s : ByteSet) : List (UInt8 × UInt8) := s.runsFrom 0

/-- A run as text: its only byte, or its first and last byte around a hyphen. -/
def renderRun : UInt8 × UInt8 → List Char
  | (lo, hi) =>
    if lo = hi then Text.escapeByte lo else Text.escapeByte lo ++ '-' :: Text.escapeByte hi

/-- The runs with a comma and a blank between them. -/
def renderRuns : List (UInt8 × UInt8) → List Char
  | [] => []
  | [run] => renderRun run
  | run :: rest => renderRun run ++ ',' :: ' ' :: renderRuns rest

/-- The written form of a set, such as `[a-c, x]`. -/
def render (s : ByteSet) : String :=
  String.ofList ('[' :: renderRuns s.runs ++ [']'])

end ByteSet

end PegMachine
