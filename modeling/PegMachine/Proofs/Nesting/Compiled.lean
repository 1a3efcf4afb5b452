import PegMachine.Proofs.Nesting.Lowered
import PegMachine.Proofs.Nesting.Passes
import PegMachine.Proofs.Programs.Compiled

/-!
# Nested programs

* `Program.Placed`: the places of a program. `Pattern.Compiled.placed`: **every compiled pattern has
  them.**
* `OwnOpen`: the start of the capture that an instruction in a program belongs to.
* `Program.Placed.ownOpen`: **what is unclosed at an address are the starts of the captures that it
  lies in.**
-/

namespace PegMachine

open Block

/-! ## Places of programs -/

/-- The places of a program whose match ends at address `last`. -/
structure Program.Placed (program : Program) (place : Nat → Place) (last : Nat) : Prop where
  entry : place 0 = .past 0
  exit : ∃ starts, place last = .past starts
  fits : ∀ (k : Nat) (instr : Instr), program.code[k]? = some instr →
    instr.Fits program 0 place k

theorem Block.Placing.placed {program : Program} {code : Block} {place : Nat → Place} {starts : Nat}
    (h : Placing program 0 code place (.past 0) (.past starts)) (hcont : Contained code)
    (hcode : program.HasCode code) :
    ∃ place, program.Placed place code.length := by
  have hlast : Placing program 0 [Instr.done, Instr.giveUp] (fun _ => .past starts) (.past starts)
      (.past starts) :=
    ⟨rfl, rfl, fitsFrom_cons.2 ⟨Place.Below.rfl.toBeside,
      fitsFrom_cons.2 ⟨Place.Below.rfl.toBeside, fitsFrom_nil⟩⟩⟩
  have hwhole := h.append hlast hcont
    (contained_of_offset?_eq_none (by simp [Instr.offset?]))
  refine ⟨_, hwhole.entry, ⟨starts, Place.join_behind (k := 0)⟩, fun k instr hk => ?_⟩
  have hfits := hwhole.fits k instr (by rwa [hcode.getElem?_eq] at hk)
  rwa [Nat.zero_add] at hfits

/-- **Every compiled pattern has places.** -/
theorem Pattern.Compiled.placed {p : Pattern} {program : Program} {block code : Block}
    (h : p.Compiled program block code) : ∃ place, program.Placed place code.length := by
  have hcontained := contained_lower h.lowered
  obtain ⟨place, starts, hblock⟩ := Pattern.nested_lower h.lowered (.refl _)
  exact ((hblock.moveOpens rfl hcontained).threaded h.threaded).placed
    (h.threaded.contained (contained_moveOpens hcontained)) h.hasCode

/-! ## The starts of captures around an address -/

/-- Whether an instruction ends a capture. -/
def Instr.isClose : Instr → Bool
  | .closeCapture | .closeMatchTime => true
  | _ => false

/-- Code in which every capture that starts ends, too. -/
inductive Bracketed : Block → Prop where
  | nil : Bracketed []
  | other {code : Block} {instr : Instr} (h : Bracketed code) (hstart : instr.start? = none)
      (hclose : instr.isClose = false) : Bracketed (code ++ [instr])
  | nest {code inner : Block} {kind : CaptureKind} {back index : Nat} {close : Instr}
      (h : Bracketed code) (hinner : Bracketed inner) (hclose : close.isClose = true) :
      Bracketed (code ++ .openCapture kind back index :: (inner ++ [close]))

/-- The capture that starts at `owner` is the innermost one around an address: every other capture
that starts between them ends there, too. -/
def OwnOpen (code : Block) (address owner : Nat) : Prop :=
  (∃ kind back index, code[owner]? = some (.openCapture kind back index)) ∧
  ∃ between, StandsAt code (owner + 1) between ∧ owner + 1 + between.length = address ∧
    Bracketed between

namespace Block

variable {code a b : Block} {n : Nat} {instr : Instr}

theorem standsAt_nil (h : n ≤ code.length) : StandsAt code n [] :=
  ⟨code.take n, code.drop n, by simp, List.length_take_of_le h⟩

theorem StandsAt.snoc (instr : Instr) (h : StandsAt code n a)
    (hinstr : code[n + a.length]? = some instr) :
    StandsAt code n (a ++ [instr]) := by
  obtain ⟨before, behind, rfl, rfl⟩ := h
  rw [List.getElem?_append_right (by simp), List.length_append, Nat.sub_self] at hinstr
  cases behind with
  | nil => cases hinstr
  | cons head behind =>
    cases hinstr
    exact ⟨before, behind, by simp, rfl⟩

theorem StandsAt.append (ha : StandsAt code n a) (hb : StandsAt code (n + a.length) b) :
    StandsAt code n (a ++ b) := by
  obtain ⟨before, behind, rfl, rfl⟩ := ha
  obtain ⟨before', behind', hcode, hlength⟩ := hb
  rw [List.append_assoc before' b] at hcode
  obtain ⟨rfl, rfl⟩ := List.append_inj hcode (by simp [hlength])
  exact ⟨before, behind', by simp, rfl⟩

end Block

namespace Program.Placed

variable {program : Program} {place : Nat → Place} {last k n ordinal : Nat} {instr : Instr}
  {outer : List Nat}

/-- An instruction starts a capture, ends one, or leaves the starts before it as they are. -/
theorem brackets (h : program.Placed place last) (hinstr : program.code[k]? = some instr) :
    ((∃ kind back index, instr = .openCapture kind back index) ∧
      (place (k + 1)).starts = (place k).starts + 1 ∧
      (place (k + 1)).unclosed = (place k).starts :: (place k).unclosed) ∨
    (instr.isClose = true ∧ (place (k + 1)).starts = (place k).starts ∧
      ∃ ordinal, (place k).unclosed = ordinal :: (place (k + 1)).unclosed) ∨
    (instr.start? = none ∧ instr.isClose = false ∧ (place k).Beside (place (k + 1))) := by
  have hfits := h.fits k instr hinstr
  cases instr with
  | openCapture kind back index =>
    exact .inl ⟨⟨_, _, _, rfl⟩, hfits.2.2.2.2.1, hfits.2.2.2.2.2⟩
  | closeCapture | closeMatchTime =>
    obtain ⟨-, hstarts, ordinal, _, _, -, -, hunclosed⟩ := hfits
    exact .inr (.inl ⟨rfl, hstarts, ordinal, hunclosed⟩)
  | any | char | set | span | matcher | call | openCall | fullCapture | emptyCapture
  | emptyCaptureConst => exact .inr (.inr ⟨rfl, rfl, hfits.1.toBeside⟩)
  | ret => exact .inr (.inr ⟨rfl, rfl, hfits.2⟩)
  | done | fail | giveUp => exact .inr (.inr ⟨rfl, rfl, hfits⟩)
  | choice => exact .inr (.inr ⟨rfl, rfl, hfits.2.2.2.1⟩)
  | jump | commit | backCommit | partialCommit | failTwice =>
    exact .inr (.inr ⟨rfl, rfl, hfits.1⟩)

theorem starts_mono (h : program.Placed place last) (hle : k ≤ n) (hn : n ≤ program.code.size) :
    (place k).starts ≤ (place n).starts := by
  induction n with
  | zero => exact Nat.le_of_eq (by rw [Nat.le_zero.1 hle])
  | succ n ih =>
    rcases Nat.lt_or_eq_of_le hle with hlt | rfl
    · have hstep := ih (Nat.le_of_lt_succ hlt) (by omega)
      have hinstr : program.code[n]? = some program.code[n] := Array.getElem?_eq_getElem hn
      rcases h.brackets hinstr with ⟨-, hstarts, -⟩ | ⟨-, hstarts, -⟩ | ⟨-, -, hbeside⟩
      · omega
      · omega
      · rw [hbeside.starts]
        exact hstep
    · exact Nat.le_refl _

theorem eq_of_starts (h : program.Placed place last) {a b : Nat}
    {kind kind' : CaptureKind} {back back' index index' : Nat}
    (ha : program.code[a]? = some (.openCapture kind back index))
    (hb : program.code[b]? = some (.openCapture kind' back' index'))
    (hstarts : (place a).starts = (place b).starts) : a = b := by
  have hbefore : ∀ {a b : Nat} {kind kind' : CaptureKind} {back back' index index' : Nat},
      program.code[a]? = some (.openCapture kind back index) →
      program.code[b]? = some (.openCapture kind' back' index') → a < b →
      (place a).starts < (place b).starts := by
    intro a b kind kind' back back' index index' ha hb hlt
    obtain ⟨hsize, -⟩ := Array.getElem?_eq_some_iff.1 hb
    have hmono : (place (a + 1)).starts ≤ (place b).starts :=
      h.starts_mono hlt (Nat.le_of_lt hsize)
    have hnext := (h.fits a _ ha).2.2.2.2.1
    omega
  rcases Nat.lt_trichotomy a b with hlt | heq | hlt
  · exact absurd hstarts (Nat.ne_of_lt (hbefore ha hb hlt))
  · exact heq
  · exact absurd hstarts (Nat.ne_of_gt (hbefore hb ha hlt))

/-- **What is unclosed at an address are the starts of the captures that it lies in.** -/
theorem ownOpen (h : program.Placed place last) (hk : k ≤ program.code.size)
    (hunclosed : (place k).unclosed = ordinal :: outer) :
    ∃ owner, OwnOpen program.code.toList k owner ∧ owner < k ∧ (place owner).starts = ordinal ∧
      (place owner).unclosed = outer := by
  induction k using Nat.strongRecOn generalizing ordinal outer with
  | ind k ih =>
    cases k with
    | zero =>
      rw [h.entry] at hunclosed
      cases hunclosed
    | succ k =>
      have hinstr : program.code[k]? = some program.code[k] := Array.getElem?_eq_getElem hk
      have hat : program.code.toList[k]? = some program.code[k] := by
        rw [Array.getElem?_toList, hinstr]
      rcases h.brackets hinstr with ⟨⟨kind, back, index, hopen⟩, -, hnext⟩ |
        ⟨hclose, -, inner, hnext⟩ | ⟨hstart, hclose, hbeside⟩
      · -- the start is the instruction before
        rw [hnext] at hunclosed
        cases hunclosed
        refine ⟨k, ⟨⟨kind, back, index, by rw [hat, hopen]⟩, [], ?_, rfl, .nil⟩,
          Nat.lt_succ_self k, rfl, rfl⟩
        exact standsAt_nil (by simpa using hk)
      · -- a capture ends here, so the start lies before the one of that capture
        rw [hunclosed] at hnext
        obtain ⟨opened, ⟨⟨kind, back, index, hopened⟩, nested, hnested, hlength, hbracketed⟩, hlt, -,
          hout⟩ := ih k (Nat.lt_succ_self k) (by omega) hnext
        obtain ⟨owner, ⟨howner, between, hbetween, hlength', hbracketed'⟩, hlt', hstarts, hrest⟩ :=
          ih opened (by omega) (by omega) hout
        refine ⟨owner, ⟨howner, between ++ .openCapture kind back index ::
          (nested ++ [program.code[k]]), ?_, by simp; omega, hbracketed'.nest hbracketed hclose⟩,
          by omega, hstarts, hrest⟩
        have hfirst := hbetween.snoc (.openCapture kind back index) (by
          rw [hlength', hopened])
        have hsecond := hfirst.append (b := nested) (by
          rw [List.length_append, List.length_singleton, ← Nat.add_assoc, hlength']
          exact hnested)
        have hwhole := hsecond.snoc program.code[k] (by
          rw [← hat]
          congr 1
          simp
          omega)
        simpa using hwhole
      · rw [hbeside.unclosed] at hunclosed
        obtain ⟨owner, ⟨howner, between, hbetween, hlength, hbracketed⟩, hlt, hstarts, hrest⟩ :=
          ih k (Nat.lt_succ_self k) (by omega) hunclosed
        refine ⟨owner, ⟨howner, between ++ [program.code[k]],
          hbetween.snoc _ (by rw [hlength, hat]), by simp; omega, hbracketed.other hstart hclose⟩,
          by omega, hstarts, hrest⟩

end Program.Placed

end PegMachine
