import PegMachine.Proofs.Blocks.Layout
import PegMachine.Proofs.Captures.Recorded

/-!
# Places in code

What is known about an address without running the code.

* `Nest`: the captures and the choices that are open at an address.
* `Place`: the nest of an address, how many bytes the checks right before it consume, and the starts
  of captures before it.
* `Instr.Fits`: the places around an instruction and at the ends of its jump are in line with what
  the instruction does.
* `Block.Nested`: all instructions of a block fit.
* `Instr.Fits.transfer`: **what fits at a place of a block fits where that block stands elsewhere.**
* `Block.Placing.cons`, `Block.Placing.append`: the places of code that is put together.
-/

namespace PegMachine

/-! ## Nests and places -/

/-- What is open at an address, from the inside out. -/
inductive Nest where
  /-- Nothing but what is open around the code. -/
  | hole
  /-- The call of a rule. -/
  | rule
  /-- A capture, the one with the given number in the order of the starts of captures. -/
  | opened (ordinal : Nat) (kind : CaptureKind) (index : Nat) (outer : Nest)
  | chosen (outer : Nest)

/-- A nest inside another one, `starts` captures having started before. -/
def Nest.within (nest : Nest) (starts : Nat) (outer : Nest) : Nest :=
  match nest with
  | .hole => outer
  | .rule => .rule
  | .opened ordinal kind index nest => .opened (ordinal + starts) kind index (nest.within starts outer)
  | .chosen nest => .chosen (nest.within starts outer)

/-- What is known about an address. -/
@[ext]
structure Place where
  nest : Nest
  /-- The bytes right before the current position that nothing has been recorded of. -/
  lag : Nat
  /-- The number of starts of captures before the address. -/
  starts : Nat
  /-- The starts of captures before the address whose ends come behind it, the last one first. -/
  unclosed : List Nat

namespace Place

/-- The place behind a block with so many starts of captures. -/
def past (starts : Nat) : Place := ⟨.hole, 0, starts, []⟩

/-- A place of a block that stands at another place. -/
def within (place outer : Place) : Place where
  nest := place.nest.within outer.starts outer.nest
  lag := place.lag
  starts := place.starts + outer.starts
  unclosed := place.unclosed.map (· + outer.starts) ++ outer.unclosed

/-- The starts of captures before two addresses are the same. -/
structure Beside (p q : Place) : Prop where
  starts : q.starts = p.starts
  unclosed : q.unclosed = p.unclosed

/-- The same is open at two addresses. -/
structure Keeps (p q : Place) : Prop extends Beside p q where
  nest : q.nest = p.nest

/-- The places are the same, but for a smaller lag. -/
structure Below (q p : Place) : Prop extends Keeps p q where
  lag : q.lag ≤ p.lag

/-- The place of a jump's end. -/
structure LandsIn (place : Nat → Place) (target : Int) (nest : Nest) : Prop where
  nest : (place target.toNat).nest = nest
  lag : (place target.toNat).lag = 0

end Place

/-- The constant that the start of a capture refers to is there. -/
inductive Starts (program : Program) (kind : CaptureKind) (index : Nat) : Prop where
  | wraps {content : Content} (hkind : kind ≠ .matchTime) (h : Names program kind index content)
      (hwraps : content.wraps = true) : Starts program kind index
  | matchTime {f : MatchTimeFunction} (hkind : kind = .matchTime)
      (h : program.constant? index = some (.matchTime f)) : Starts program kind index

theorem Starts.exists_function {program : Program} {index : Nat}
    (h : Starts program .matchTime index) : ∃ f, program.constant? index = some (.matchTime f) := by
  cases h with
  | wraps hkind => exact absurd rfl hkind
  | matchTime _ hconst => exact ⟨_, hconst⟩

/-! ## Instructions -/

open Place in
/-- The places around an instruction at address `k` and at the end of its jump are in line with what
it does. Open calls are of one of `rules` rules. -/
def Instr.Fits (program : Program) (rules : Nat) (place : Nat → Place) (k : Nat) : Instr → Prop
  | .any n off =>
    (place k).Keeps (place (k + 1)) ∧ (place (k + 1)).lag ≤ (place k).lag + n ∧
      (off ≠ 0 → LandsIn place (k + off) (place k).nest)
  | .char _ off | .set _ off =>
    (place k).Keeps (place (k + 1)) ∧ (place (k + 1)).lag ≤ (place k).lag + 1 ∧
      (off ≠ 0 → LandsIn place (k + off) (place k).nest)
  | .span _ | .matcher _ => (place k).Keeps (place (k + 1)) ∧ (place (k + 1)).lag = 0
  | .ret => (place k).nest = .rule ∧ (place k).Beside (place (k + 1))
  | .done | .fail | .giveUp => (place k).Beside (place (k + 1))
  | .choice off back =>
    back ≤ (place k).lag ∧ (place (k + 1)).nest = .chosen (place k).nest ∧
      (place (k + 1)).lag ≤ back ∧ (place k).Beside (place (k + 1)) ∧
      LandsIn place (k + off) (place k).nest
  | .jump off => (place k).Beside (place (k + 1)) ∧ LandsIn place (k + off) (place k).nest
  | .call off =>
    (place k).Keeps (place (k + 1)) ∧ (place (k + 1)).lag = 0 ∧ LandsIn place (k + off) .rule
  | .openCall rule =>
    (place k).Keeps (place (k + 1)) ∧ (place (k + 1)).lag = 0 ∧ rule < rules
  | .commit off | .backCommit off =>
    (place k).Beside (place (k + 1)) ∧
      ∃ outer, (place k).nest = .chosen outer ∧ LandsIn place (k + off) outer
  | .partialCommit off =>
    (place k).Beside (place (k + 1)) ∧
      (∃ outer, (place k).nest = .chosen outer) ∧ LandsIn place (k + off) (place k).nest
  | .failTwice =>
    (place k).Beside (place (k + 1)) ∧ ∃ outer, (place k).nest = .chosen outer
  | .fullCapture kind length index =>
    (place k).Keeps (place (k + 1)) ∧ (place (k + 1)).lag = 0 ∧ length ≤ (place k).lag ∧
      ∃ content, Names program kind index content
  | .emptyCapture kind index | .emptyCaptureConst kind index =>
    (place k).Keeps (place (k + 1)) ∧ (place (k + 1)).lag = 0 ∧
      ∃ content, Names program kind index content
  | .openCapture kind back index =>
    back ≤ (place k).lag ∧ Starts program kind index ∧
      (place (k + 1)).nest = .opened (place k).starts kind index (place k).nest ∧
      (place (k + 1)).lag ≤ back ∧ (place (k + 1)).starts = (place k).starts + 1 ∧
      (place (k + 1)).unclosed = (place k).starts :: (place k).unclosed
  | .closeCapture =>
    (place (k + 1)).lag = 0 ∧ (place (k + 1)).starts = (place k).starts ∧
      ∃ ordinal kind index, (place k).nest = .opened ordinal kind index (place (k + 1)).nest ∧
        kind ≠ .matchTime ∧ (place k).unclosed = ordinal :: (place (k + 1)).unclosed
  | .closeMatchTime =>
    (place (k + 1)).lag = 0 ∧ (place (k + 1)).starts = (place k).starts ∧
      ∃ ordinal kind index, (place k).nest = .opened ordinal kind index (place (k + 1)).nest ∧
        kind = .matchTime ∧ (place k).unclosed = ordinal :: (place (k + 1)).unclosed

/-- The instructions of a block that stands at `start` fit. -/
def Block.FitsFrom (program : Program) (rules : Nat) (place : Nat → Place) (start : Nat)
    (code : Block) : Prop :=
  ∀ (k : Nat) (instr : Instr), code[k]? = some instr → instr.Fits program rules place (start + k)

/-- The places of a block that is entered at `entry` and left at `exit`. -/
structure Block.Placing (program : Program) (rules : Nat) (code : Block) (place : Nat → Place)
    (entry exit : Place) : Prop where
  entry : place 0 = entry
  exit : place code.length = exit
  fits : FitsFrom program rules place 0 code

/-- All instructions of a block on its own fit. -/
def Block.Nested (program : Program) (rules : Nat) (code : Block) : Prop :=
  ∃ place starts, Placing program rules code place (.past 0) (.past starts)

section

variable {program : Program} {rules : Nat} {place place' : Nat → Place} {start k k' : Nat}
  {a b code : Block} {instr : Instr} {p q outer : Place} {target target' : Int} {nest : Nest}

/-! ## Places within places -/

theorem Nest.within_zero_hole (nest : Nest) : nest.within 0 .hole = nest := by
  induction nest with
  | hole | rule => rfl
  | opened _ _ _ _ ih => rw [Nest.within, ih, Nat.add_zero]
  | chosen _ ih => rw [Nest.within, ih]

namespace Place

theorem past_within (starts : Nat) (outer : Place) :
    (past starts).within outer = { outer with lag := 0, starts := starts + outer.starts } := rfl

theorem entry_within (h : outer.lag = 0) : (past 0).within outer = outer := by
  rw [past_within, Nat.zero_add, ← h]

theorem within_past_zero (place : Place) : place.within (past 0) = place := by
  simp [within, past, Nest.within_zero_hole]

theorem Below.rfl : p.Below p := ⟨⟨⟨Eq.refl _, Eq.refl _⟩, Eq.refl _⟩, Nat.le_refl _⟩

theorem Below.of_eq (h : p = q) : p.Below q := h ▸ .rfl

theorem Beside.transfer (h : p.Beside q) (hp : place k = p.within outer)
    (hq : (place k').Below (q.within outer)) : (place k).Beside (place k') := by
  refine ⟨?_, ?_⟩
  · rw [hp, hq.starts, within, within, h.starts]
  · rw [hp, hq.unclosed, within, within, h.unclosed, h.starts]

theorem Keeps.transfer (h : p.Keeps q) (hp : place k = p.within outer)
    (hq : (place k').Below (q.within outer)) : (place k).Keeps (place k') := by
  refine ⟨h.toBeside.transfer hp hq, ?_⟩
  rw [hp, hq.nest, within, within, h.nest]

theorem LandsIn.transfer (h : LandsIn place target nest)
    (hland : (place' target'.toNat).Below ((place target.toNat).within outer)) :
    LandsIn place' target' (nest.within outer.starts outer.nest) := by
  refine ⟨?_, ?_⟩
  · rw [hland.nest, within, h.nest]
  · exact Nat.le_zero.1 (h.lag ▸ hland.lag)

theorem LandsIn.of_eq {n : Nat} (h : target = n) (hplace : place n = q) (hnest : q.nest = nest)
    (hlag : q.lag = 0) : LandsIn place target nest := by
  subst h hplace
  exact ⟨hnest, hlag⟩

end Place

/-! ## Instructions elsewhere -/

/-- **An instruction that fits at a place of a block fits where that block stands at another place**,
and so does one whose jump and successor have smaller lags. -/
theorem Instr.Fits.transfer (outer : Place) (h : instr.Fits program rules place k)
    (hk : place' k' = (place k).within outer)
    (hnext : (place' (k' + 1)).Below ((place (k + 1)).within outer))
    (hland : ∀ off, instr.offset? = some off →
      (place' ((k' : Int) + off).toNat).Below ((place ((k : Int) + off).toNat).within outer)) :
    instr.Fits program rules place' k' := by
  have hlag : (place' k').lag = (place k).lag := by rw [hk, Place.within]
  have hnest : (place' k').nest = (place k).nest.within outer.starts outer.nest := by
    rw [hk, Place.within]
  have hreset : (place (k + 1)).lag = 0 → (place' (k' + 1)).lag = 0 := fun h0 =>
    Nat.le_zero.1 (h0 ▸ hnext.lag)
  cases instr with
  | any n off | char n off | set n off =>
    obtain ⟨hkeeps, hbytes, hjump⟩ := h
    refine ⟨hkeeps.transfer hk hnext, ?_, fun hoff => ?_⟩
    · rw [hlag]
      exact Nat.le_trans hnext.lag hbytes
    · rw [hnest]
      exact (hjump hoff).transfer (hland off (by simp [Instr.offset?, hoff]))
  | span s | matcher index => exact ⟨h.1.transfer hk hnext, hreset h.2⟩
  | ret => exact ⟨by rw [hnest, h.1, Nest.within], h.2.transfer hk hnext⟩
  | done | fail | giveUp => exact Place.Beside.transfer h hk hnext
  | choice off back =>
    obtain ⟨hback, hchosen, hbytes, hbeside, hjump⟩ := h
    refine ⟨hlag ▸ hback, ?_, Nat.le_trans hnext.lag hbytes, hbeside.transfer hk hnext, ?_⟩
    · rw [hnext.nest, Place.within, hchosen, Nest.within, hnest]
    · rw [hnest]
      exact hjump.transfer (hland off rfl)
  | jump off => exact ⟨h.1.transfer hk hnext, hnest ▸ h.2.transfer (hland off rfl)⟩
  | call off =>
    exact ⟨h.1.transfer hk hnext, hreset h.2.1, h.2.2.transfer (hland off rfl)⟩
  | openCall rule => exact ⟨h.1.transfer hk hnext, hreset h.2.1, h.2.2⟩
  | commit off | backCommit off =>
    obtain ⟨hbeside, inner, hchosen, hjump⟩ := h
    exact ⟨hbeside.transfer hk hnext, _, by rw [hnest, hchosen, Nest.within],
      hjump.transfer (hland off rfl)⟩
  | partialCommit off =>
    obtain ⟨hbeside, ⟨inner, hchosen⟩, hjump⟩ := h
    refine ⟨hbeside.transfer hk hnext, ⟨_, by rw [hnest, hchosen, Nest.within]⟩, ?_⟩
    rw [hnest]
    exact hjump.transfer (hland off rfl)
  | failTwice =>
    obtain ⟨hbeside, inner, hchosen⟩ := h
    exact ⟨hbeside.transfer hk hnext, _, by rw [hnest, hchosen, Nest.within]⟩
  | fullCapture kind length index =>
    exact ⟨h.1.transfer hk hnext, hreset h.2.1, hlag ▸ h.2.2.1, h.2.2.2⟩
  | emptyCapture kind index | emptyCaptureConst kind index =>
    exact ⟨h.1.transfer hk hnext, hreset h.2.1, h.2.2⟩
  | openCapture kind back index =>
    obtain ⟨hback, hstarts, hopened, hbytes, hcount, hunclosed⟩ := h
    refine ⟨hlag ▸ hback, hstarts, ?_, Nat.le_trans hnext.lag hbytes, ?_, ?_⟩
    · rw [hnext.nest, hk, Place.within, hopened, Nest.within, Place.within]
    · rw [hnext.starts, hk, Place.within, Place.within, hcount, Nat.add_right_comm]
    · rw [hnext.unclosed, hk, Place.within, Place.within, hunclosed]
      rfl
  | closeCapture | closeMatchTime =>
    obtain ⟨h0, hcount, ordinal, kind, index, hopened, hkind, hunclosed⟩ := h
    refine ⟨hreset h0, ?_, ordinal + outer.starts, kind, index, ?_, hkind, ?_⟩
    · rw [hnext.starts, hk, Place.within, Place.within, hcount]
    · rw [hnest, hopened, Nest.within, hnext.nest, Place.within]
    · rw [hk, Place.within, hunclosed, hnext.unclosed, Place.within]
      rfl

/-! ## Places one after another -/

namespace Place

/-- The places of some code, `n` addresses long, and of the code behind it. -/
def join (n : Nat) (front behind : Nat → Place) : Nat → Place := fun k =>
  if k < n then front k else behind (k - n)

/-- The place of an instruction and the places of the code behind it. -/
def cons (place : Place) (behind : Nat → Place) : Nat → Place
  | 0 => place
  | k + 1 => behind k

section

variable {n : Nat} {front behind : Nat → Place}

theorem join_behind : join n front behind (n + k) = behind k := by
  rw [join, if_neg (by omega), Nat.add_sub_cancel_left]

theorem join_front (h : front n = behind 0) (hk : k ≤ n) : join n front behind k = front k := by
  rcases Nat.lt_or_eq_of_le hk with hlt | rfl
  · exact if_pos hlt
  · exact (join_behind (k := 0)).trans h.symm

end

end Place

/-! ## Blocks put together -/

namespace Block

theorem fitsFrom_nil : FitsFrom program rules place start [] := by
  simp [FitsFrom]

theorem fitsFrom_cons : FitsFrom program rules place start (instr :: code) ↔
    instr.Fits program rules place start ∧ FitsFrom program rules place (start + 1) code := by
  constructor
  · refine fun h => ⟨h 0 instr rfl, fun k i hk => ?_⟩
    have := h (k + 1) i hk
    rwa [Nat.add_assoc, Nat.add_comm 1]
  · rintro ⟨hhead, htail⟩ k i hk
    cases k with
    | zero =>
      cases hk
      exact hhead
    | succ k =>
      have := htail k i hk
      rwa [Nat.add_assoc, Nat.add_comm 1] at this

theorem fitsFrom_append : FitsFrom program rules place start (a ++ b) ↔
    FitsFrom program rules place start a ∧ FitsFrom program rules place (start + a.length) b := by
  induction a generalizing start with
  | nil => simp [fitsFrom_nil]
  | cons instr a ih =>
    rw [List.cons_append, fitsFrom_cons, fitsFrom_cons, ih, and_assoc,
      show start + 1 + a.length = start + (instr :: a).length by simp; omega]

namespace Placing

variable {placeA placeB : Nat → Place} {r : Place}

/-- **A block whose instructions fit does so wherever it stands.** -/
theorem fits_at (h : Placing program rules code place p q) (hcont : Contained code) (outer : Place)
    (hplace : ∀ k ≤ code.length, place' (start + k) = (place k).within outer) :
    FitsFrom program rules place' start code := by
  intro k instr hk
  have hlt := (List.getElem?_eq_some_iff.1 hk).1
  have hfits := h.fits k instr hk
  rw [Nat.zero_add] at hfits
  refine hfits.transfer outer (hplace k (Nat.le_of_lt hlt)) (.of_eq (hplace (k + 1) hlt))
    fun off hoff => .of_eq ?_
  obtain ⟨hlo, hhi⟩ := hcont k instr off hk hoff
  have htarget : (((start + k : Nat) : Int) + off).toNat = start + ((k : Int) + off).toNat := by
    omega
  rw [htarget]
  exact hplace _ (by omega)

theorem within (h : Placing program rules code place p q) (hcont : Contained code)
    (outer : Place) :
    Placing program rules code (fun k => (place k).within outer) (p.within outer)
      (q.within outer) where
  entry := by rw [h.entry]
  exit := by rw [h.exit]
  fits := h.fits_at hcont outer fun k _ => by rw [Nat.zero_add]

theorem nil (p : Place) : Placing program rules [] (fun _ => p) p p :=
  ⟨rfl, rfl, fitsFrom_nil⟩

theorem cons (instr : Instr) (h : Placing program rules code place q r) (hcont : Contained code)
    (hinstr : instr.Fits program rules (Place.cons p place) 0) :
    Placing program rules (instr :: code) (Place.cons p place) p r where
  entry := rfl
  exit := h.exit
  fits := fitsFrom_cons.2 ⟨hinstr, h.fits_at hcont (.past 0) fun k _ => by
    rw [Nat.zero_add, Nat.add_comm, Place.cons, Place.within_past_zero]⟩

theorem append (ha : Placing program rules a placeA p q)
    (hb : Placing program rules b placeB q r) (hcontA : Contained a) (hcontB : Contained b) :
    Placing program rules (a ++ b) (Place.join a.length placeA placeB) p r := by
  have hjoin : placeA a.length = placeB 0 := ha.exit.trans hb.entry.symm
  refine ⟨?_, ?_, fitsFrom_append.2 ⟨ha.fits_at hcontA (.past 0) fun k hk => ?_,
    hb.fits_at hcontB (.past 0) fun k _ => ?_⟩⟩
  · rw [Place.join_front hjoin (Nat.zero_le _), ha.entry]
  · rw [List.length_append, Place.join_behind, hb.exit]
  · rw [Nat.zero_add, Place.within_past_zero, Place.join_front hjoin hk]
  · rw [Nat.zero_add, Place.within_past_zero, Place.join_behind]

theorem snoc (instr : Instr) (ha : Placing program rules a placeA p q) (hcontA : Contained a)
    (hinstr : ∀ place, place 0 = p → place a.length = q → place (a.length + 1) = r →
      instr.Fits program rules place a.length) :
    Placing program rules (a ++ [instr]) (Place.join a.length placeA (Place.cons q fun _ => r)) p
      r := by
  have hentry : Place.join a.length placeA (Place.cons q fun _ => r) 0 = p := by
    rw [Place.join_front ha.exit (Nat.zero_le _), ha.entry]
  refine ⟨hentry, ?_, fitsFrom_append.2 ⟨ha.fits_at hcontA (.past 0) fun k hk => ?_,
    fitsFrom_cons.2 ⟨?_, fitsFrom_nil⟩⟩⟩
  · rw [List.length_append, Place.join_behind]
    rfl
  · rw [Nat.zero_add, Place.within_past_zero, Place.join_front ha.exit hk]
  · rw [Nat.zero_add]
    exact hinstr _ hentry (Place.join_behind (k := 0)) Place.join_behind

end Placing

end Block

end

end PegMachine
