import PegMachine.Proofs.Machine.Trace

/-!
# Well-bracketed entries

* `Balanced`: lists of entries in which every capture that starts ends, too.
* `Records`: what a run has added to the captures.
* `innermostOpen?_of_records`: behind well-bracketed entries the innermost open capture is the one
  that was opened right before them.
* `closeEntries_of_records`: what the end of a capture does to its entries.
-/

namespace PegMachine

/-- Lists of entries in which every capture that starts ends, too. -/
inductive Balanced : List Entry → Prop where
  | nil : Balanced []
  | full {entries : List Entry} {kind : CaptureKind} {index pos length : Nat}
      (h : Balanced entries) : Balanced (entries ++ [.full kind index pos length])
  | dynamic {entries : List Entry} {start stop : Nat} {values : List Value}
      (h : Balanced entries) : Balanced (entries ++ [.dynamic start stop values])
  | nest {entries nested : List Entry} {kind : CaptureKind} {index start stop : Nat}
      (h : Balanced entries) (hnested : Balanced nested) :
      Balanced (entries ++ .opened kind index start :: (nested ++ [.closed stop]))

/-- A run has added entries to the captures. -/
def Records (captures : Array Entry) (entries : List Entry) (captures' : Array Entry) : Prop :=
  captures'.toList = captures.toList ++ entries

section

variable {a b c : Array Entry} {entries nested : List Entry} {kind : CaptureKind}
  {index pos : Nat} {entry : Entry}

theorem Balanced.append {more : List Entry} (h : Balanced entries) (hmore : Balanced more) :
    Balanced (entries ++ more) := by
  induction hmore with
  | nil => simpa using h
  | full _ ih =>
    rw [← List.append_assoc]
    exact ih.full
  | dynamic _ ih =>
    rw [← List.append_assoc]
    exact ih.dynamic
  | nest _ hnested ih _ =>
    rw [← List.append_assoc]
    exact ih.nest hnested

theorem Balanced.getLast?_ne_opened (h : Balanced entries) :
    entries.getLast? ≠ some (.opened kind index pos) := by
  cases h with
  | nil => simp
  | full => simp
  | dynamic => simp
  | nest => simp [List.getLast?_cons]

/-! ## What runs record -/

theorem records_nil (a : Array Entry) : Records a [] a := by
  simp [Records]

theorem Records.trans {more : List Entry} (h : Records a entries b) (h' : Records b more c) :
    Records a (entries ++ more) c := by
  rw [Records] at h h' ⊢
  rw [h', h, List.append_assoc]

theorem records_push (a : Array Entry) (entry : Entry) : Records a [entry] (a.push entry) := by
  simp [Records]

theorem Records.unique {more : List Entry} (h : Records a entries b) (h' : Records a more b) :
    entries = more := by
  rw [Records] at h h'
  rw [h] at h'
  exact List.append_cancel_left h'

theorem Records.extends (h : Records a entries b) : Extends a b :=
  ⟨entries, h.symm⟩

theorem Records.getElem?_at (h : Records (a.push entry) entries b) : b[a.size]? = some entry := by
  rw [Records] at h
  rw [← Array.getElem?_toList, h]
  simp

/-! ## The innermost open capture -/

theorem openBelow?_full {depth i length : Nat} (h : b[i]? = some (.full kind index pos length)) :
    Entry.openBelow? b depth (i + 1) = Entry.openBelow? b depth i := by
  cases depth <;> simp [Entry.openBelow?, h]

theorem openBelow?_dynamic {depth i start stop : Nat} {values : List Value}
    (h : b[i]? = some (.dynamic start stop values)) :
    Entry.openBelow? b depth (i + 1) = Entry.openBelow? b depth i := by
  cases depth <;> simp [Entry.openBelow?, h]

theorem openBelow?_closed {depth i stop : Nat} (h : b[i]? = some (.closed stop)) :
    Entry.openBelow? b depth (i + 1) = Entry.openBelow? b (depth + 1) i := by
  cases depth <;> simp [Entry.openBelow?, h]

theorem openBelow?_opened {i : Nat} (h : b[i]? = some (.opened kind index pos)) :
    Entry.openBelow? b 0 (i + 1) = some i ∧
      ∀ depth, Entry.openBelow? b (depth + 1) (i + 1) = Entry.openBelow? b depth i := by
  simp [Entry.openBelow?, h]

theorem openBelow?_of_balanced {before : List Entry} (h : Balanced entries) (depth : Nat)
    (behind : List Entry)
    (hb : b.toList = before ++ entries ++ behind) :
    Entry.openBelow? b depth (before ++ entries).length =
      Entry.openBelow? b depth before.length := by
  have hat : ∀ (front : List Entry) (entry : Entry) (rest : List Entry),
      b.toList = front ++ entry :: rest → b[front.length]? = some entry := by
    intro front entry rest he
    rw [← Array.getElem?_toList, he]
    simp
  induction h generalizing before depth behind with
  | nil => simp
  | @full entries kind index pos length h ih =>
    have hentry := hat (before ++ entries) (.full kind index pos length) behind (by rw [hb]; simp)
    rw [← List.append_assoc, List.length_append, List.length_singleton, openBelow?_full hentry]
    exact ih depth (.full kind index pos length :: behind) (by rw [hb]; simp)
  | @dynamic entries start stop values h ih =>
    have hentry := hat (before ++ entries) (.dynamic start stop values) behind (by rw [hb]; simp)
    rw [← List.append_assoc, List.length_append, List.length_singleton, openBelow?_dynamic hentry]
    exact ih depth (.dynamic start stop values :: behind) (by rw [hb]; simp)
  | @nest entries nested kind index start stop h hnested ih ihNested =>
    have hlength : (before ++ (entries ++ Entry.opened kind index start ::
        (nested ++ [Entry.closed stop]))).length =
        (before ++ entries ++ [Entry.opened kind index start] ++ nested).length + 1 := by
      simp
      omega
    have hclosed := hat (before ++ entries ++ [Entry.opened kind index start] ++ nested)
      (.closed stop) behind (by rw [hb]; simp)
    have hopened := hat (before ++ entries) (.opened kind index start)
      (nested ++ Entry.closed stop :: behind) (by rw [hb]; simp)
    rw [hlength, openBelow?_closed hclosed]
    refine (ihNested (depth + 1) (.closed stop :: behind) (by rw [hb]; simp)).trans ?_
    rw [List.length_append, List.length_singleton, (openBelow?_opened hopened).2 depth]
    exact ih depth (.opened kind index start :: (nested ++ Entry.closed stop :: behind))
      (by rw [hb]; simp)

/-- Behind well-bracketed entries the innermost open capture is the one opened right before. -/
theorem innermostOpen?_of_records (h : Records (a.push (.opened kind index pos)) entries b)
    (hbalanced : Balanced entries) : Entry.innermostOpen? b = some a.size := by
  have hb : b.toList = (a.toList ++ [Entry.opened kind index pos]) ++ entries ++ [] := by
    rw [Records] at h
    simpa using h
  have hsize : b.size = ((a.toList ++ [Entry.opened kind index pos]) ++ entries).length := by
    rw [← Array.length_toList, hb, List.append_nil]
  rw [Entry.innermostOpen?, hsize, openBelow?_of_balanced hbalanced 0 [] hb, List.length_append,
    List.length_singleton, Array.length_toList]
  exact (openBelow?_opened h.getElem?_at).1

/-! ## Ends of captures -/

/-- The entries of a capture, from those nested in it. -/
def wrapEntries (kind : CaptureKind) (index start stop : Nat) : List Entry → List Entry
  | [] => [.full kind index start (stop - start)]
  | entry :: rest => .opened kind index start :: (entry :: rest ++ [.closed stop])

theorem balanced_wrapEntries {stop : Nat} (h : Balanced entries) :
    Balanced (wrapEntries kind index pos stop entries) := by
  cases entries with
  | nil => exact Balanced.nil.full
  | cons entry rest => exact Balanced.nil.nest h

theorem closeEntries_of_records {stop : Nat}
    (h : Records (a.push (.opened kind index pos)) entries b) (hbalanced : Balanced entries) :
    Records a (wrapEntries kind index pos stop entries) (closeEntries b stop) := by
  have hlast : b.back? = some ((entries.getLast?).getD (.opened kind index pos)) := by
    rw [Records] at h
    rw [← Array.getLast?_toList, h, List.getLast?_append]
    cases entries.getLast? <;> simp
  rw [closeEntries, hlast]
  cases hentries : entries.getLast? with
  | none =>
    have hnil : entries = [] := List.getLast?_eq_none_iff.1 hentries
    subst hnil
    have hb : b = a.push (.opened kind index pos) := by
      apply Array.toList_inj.1
      simpa [Records] using h
    simp [Records, wrapEntries, hb]
  | some entry =>
    have hne : ∀ {k i p}, entry ≠ .opened k i p := by
      rintro k i p rfl
      exact hbalanced.getLast?_ne_opened hentries
    obtain ⟨head, rest, rfl⟩ : ∃ head rest, entries = head :: rest := by
      cases entries with
      | nil => simp at hentries
      | cons head rest => exact ⟨head, rest, rfl⟩
    have hpush : Records a (wrapEntries kind index pos stop (head :: rest))
        (b.push (.closed stop)) := by
      simp only [Records] at h ⊢
      simp [h, wrapEntries]
    cases entry with
    | opened k i p => exact absurd rfl hne
    | full | closed | dynamic => simpa using hpush

end

end PegMachine
