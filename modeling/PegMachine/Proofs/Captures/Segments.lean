import PegMachine.Proofs.Captures.Brackets
import PegMachine.Proofs.Captures.Walks

/-!
# Captures as lists of entries

* `Spells`: the entries of captures one after another, with nested spans.
* `Spells.append`, `Spells.wrap`: captures behind others, and the captures nested in one.
* `Spells.covers`: the captures take up the part of a list where their entries stand.
* `Covers.mono`, `Visible.mono`: captures stay where they are when entries are recorded behind them.
* `Covers.visible`: the named groups behind captures of a list.
-/

namespace PegMachine

/-- The entries of captures one after another, with spans between `lo` and `hi`. -/
inductive Spells (program : Program) : (lo : Nat) → List Capture → (hi : Nat) → List Entry → Prop where
  | nil {lo hi : Nat} (hle : lo ≤ hi) : Spells program lo [] hi []
  | full {lo hi pos length index : Nat} {kind : CaptureKind} {content : Content}
      {others : List Capture} {entries : List Entry} (hlo : lo ≤ pos)
      (hname : Names program kind index content)
      (hrest : Spells program (pos + length) others hi entries) :
      Spells program lo (.node content pos (pos + length) [] :: others) hi
        (.full kind index pos length :: entries)
  | dynamic {lo hi start stop : Nat} {values : List Value} {others : List Capture}
      {entries : List Entry} (hlo : lo ≤ start) (hle : start ≤ stop)
      (hrest : Spells program stop others hi entries) :
      Spells program lo (.node (.dynamic values) start stop [] :: others) hi
        (.dynamic start stop values :: entries)
  | nest {lo hi start stop index : Nat} {kind : CaptureKind} {content : Content}
      {nested others : List Capture} {inner entries : List Entry} (hlo : lo ≤ start)
      (hname : Names program kind index content) (hwraps : content.wraps = true)
      (hnested : Spells program start nested stop inner)
      (hrest : Spells program stop others hi entries) :
      Spells program lo (.node content start stop nested :: others) hi
        (.opened kind index start :: (inner ++ .closed stop :: entries))

section

variable {program : Program} {lo mid hi start stop index : Nat} {kind : CaptureKind}
  {content : Content} {captures others nested : List Capture} {entries more inner : List Entry}

namespace Spells

theorem le_span (h : Spells program lo captures hi entries) : lo ≤ hi := by
  induction h with
  | nil hle => exact hle
  | full _ _ _ ih => omega
  | dynamic _ _ _ ih => omega
  | nest _ _ _ _ _ ihNested ih => omega

theorem append (h : Spells program lo captures mid entries)
    (hmore : Spells program mid others hi more) :
    Spells program lo (captures ++ others) hi (entries ++ more) := by
  induction h with
  | @nil lo mid hle =>
    cases hmore with
    | nil hle' => exact .nil (Nat.le_trans hle hle')
    | full hlo hname hrest => exact .full (Nat.le_trans hle hlo) hname hrest
    | dynamic hlo hle' hrest => exact .dynamic (Nat.le_trans hle hlo) hle' hrest
    | nest hlo hname hwraps hnested hrest =>
      exact .nest (Nat.le_trans hle hlo) hname hwraps hnested hrest
  | full hlo hname _ ih => exact .full hlo hname (ih hmore)
  | dynamic hlo hle _ ih => exact .dynamic hlo hle (ih hmore)
  | nest hlo hname hwraps hnested _ _ ih =>
    rw [List.cons_append, List.cons_append, List.append_assoc, List.cons_append]
    exact .nest hlo hname hwraps hnested (ih hmore)

theorem mono (h : Spells program lo captures hi entries) (hle : hi ≤ stop) :
    Spells program lo captures stop entries := by
  simpa using h.append (.nil hle)

theorem balanced (h : Spells program lo captures hi entries) : Balanced entries := by
  induction h with
  | nil => exact .nil
  | full _ _ _ ih => exact Balanced.append (.full .nil) ih
  | dynamic _ _ _ ih => exact Balanced.append (.dynamic .nil) ih
  | @nest _ _ start stop index kind _ _ _ inner _ _ _ _ _ _ ihNested ih =>
    have hhead : Balanced ([] ++ .opened kind index start :: (inner ++ [.closed stop])) :=
      .nest .nil ihNested
    simpa using hhead.append ih

theorem wrap (h : Spells program start nested hi inner) (hlo : lo ≤ start) (hstop : hi ≤ stop)
    (hname : Names program kind index content) (hwraps : content.wraps = true) :
    Spells program lo [.node content start stop nested] stop
      (wrapEntries kind index start stop inner) := by
  cases inner with
  | nil =>
    have hle : start ≤ stop := Nat.le_trans h.le_span hstop
    cases h
    have hfull : Spells program lo [.node content start (start + (stop - start)) []] stop
        (wrapEntries kind index start stop []) := .full hlo hname (.nil (by omega))
    rwa [Nat.add_sub_cancel' hle] at hfull
  | cons entry rest => exact .nest hlo hname hwraps (h.mono hstop) (.nil (Nat.le_refl _))

/-- The captures take up the part of a list where their entries stand. -/
theorem covers {list : Array Entry} {before behind : List Entry}
    (h : Spells program lo captures hi entries) (hlist : list.toList = before ++ entries ++ behind) :
    Covers program list lo before.length captures hi (before.length + entries.length) := by
  have hat : ∀ {front : List Entry} {entry : Entry} {rest : List Entry},
      list.toList = front ++ entry :: rest → list[front.length]? = some entry := by
    intro front entry rest he
    rw [← Array.getElem?_toList, he]
    simp
  induction h generalizing before behind with
  | nil hle => exact .nil hle
  | @full _ _ pos length index kind _ _ _ hlo hname _ ih =>
    have hrest := @ih (before ++ [.full kind index pos length]) behind (by rw [hlist]; simp)
    refine .full (hat (hlist.trans (List.append_assoc ..))) hlo hname ?_
    simpa [Nat.add_assoc, Nat.add_comm 1] using hrest
  | @dynamic _ _ start stop values _ _ hlo hle _ ih =>
    have hrest := @ih (before ++ [.dynamic start stop values]) behind (by rw [hlist]; simp)
    refine .dynamic (hat (hlist.trans (List.append_assoc ..))) hlo hle ?_
    simpa [Nat.add_assoc, Nat.add_comm 1] using hrest
  | @nest _ _ start stop index kind _ _ _ inner entries hlo hname hwraps _ _ ihNested ih =>
    have hinner := @ihNested (before ++ [.opened kind index start])
      (.closed stop :: (entries ++ behind)) (by rw [hlist]; simp)
    have hclosed := @hat (before ++ .opened kind index start :: inner) (.closed stop)
      (entries ++ behind) (by rw [hlist]; simp)
    have hrest := @ih (before ++ .opened kind index start :: (inner ++ [.closed stop])) behind
      (by rw [hlist]; simp)
    rw [List.length_append, List.length_singleton] at hinner
    rw [List.length_append, List.length_cons, ← Nat.add_assoc, Nat.add_right_comm] at hclosed
    refine .nest (hat (hlist.trans (List.append_assoc ..))) hlo hname hwraps hinner hclosed ?_
    simpa [Nat.add_assoc, Nat.add_comm, Nat.add_left_comm] using hrest

theorem covers_leading {list : Array Entry} (before : List Entry)
    (h : Spells program lo captures hi entries) (hlist : before ++ entries <+: list.toList) :
    Covers program list lo before.length captures hi (before ++ entries).length := by
  obtain ⟨behind, hbehind⟩ := hlist
  rw [List.length_append]
  exact h.covers hbehind.symm

theorem covers_all {list : Array Entry} (h : Spells program lo captures hi list.toList) :
    Covers program list lo 0 captures hi list.size := by
  have hcovers : Covers program list lo ([] : List Entry).length captures hi
      (([] : List Entry).length + list.toList.length) :=
    h.covers (by rw [List.nil_append, List.append_nil])
  rwa [List.length_nil, Nat.zero_add, Array.length_toList] at hcovers

end Spells

theorem getElem?_mono {list list' : Array Entry} {k : Nat} {entry : Entry}
    (h : list.toList <+: list'.toList) (hat : list[k]? = some entry) : list'[k]? = some entry := by
  rw [← Array.getElem?_toList] at hat ⊢
  obtain ⟨behind, hbehind⟩ := h
  rw [← hbehind, List.getElem?_append_left (List.getElem?_eq_some_iff.1 hat).1, hat]

theorem getElem?_leading {list : Array Entry} {before : List Entry} {entry : Entry}
    (h : before ++ [entry] <+: list.toList) : list[before.length]? = some entry := by
  obtain ⟨behind, hbehind⟩ := h
  rw [← Array.getElem?_toList, ← hbehind]
  simp

theorem Covers.mono {list list' : Array Entry} {cursor next : Nat}
    (h : Covers program list lo cursor captures hi next) (hlist : list.toList <+: list'.toList) :
    Covers program list' lo cursor captures hi next := by
  induction h with
  | nil hle => exact .nil hle
  | full hat hlo hname _ ih => exact .full (getElem?_mono hlist hat) hlo hname ih
  | dynamic hat hlo hle _ ih => exact .dynamic (getElem?_mono hlist hat) hlo hle ih
  | nest hat hlo hname hwraps _ hclosed _ ihNested ih =>
    exact .nest (getElem?_mono hlist hat) hlo hname hwraps ihNested
      (getElem?_mono hlist hclosed) ih

theorem Visible.mono {r : Resolver} {list' : Array Entry} {cursor : Nat} {bindings : Bindings}
    (h : Visible r cursor bindings) (hlist : r.entries.toList <+: list'.toList) :
    Visible { r with entries := list' } cursor bindings := by
  induction h with
  | start => exact .start
  | opened _ hat ih => exact .opened ih (getElem?_mono hlist hat)
  | capture _ hcapture hhi ih => exact .capture ih (hcapture.mono hlist) hhi

theorem Covers.visible {r : Resolver} {cursor next : Nat} {bindings : Bindings}
    (h : Covers r.program r.entries lo cursor captures hi next) (hhi : hi ≤ r.subject.size)
    (hv : Visible r cursor bindings) : ∃ bindings', Visible r next bindings' := by
  induction captures generalizing lo cursor bindings with
  | nil =>
    cases h
    exact ⟨bindings, hv⟩
  | cons capture others ih =>
    obtain ⟨mid, after, hhead, hrest⟩ := h.uncons
    exact ih hrest (hv.capture hhead (Nat.le_trans hrest.le_span hhi))

end

end PegMachine
