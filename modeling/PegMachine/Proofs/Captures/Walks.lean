import PegMachine.Proofs.Captures.Recorded

/-!
# Walks over nested captures

What is gathered from the captures nested in one is what their readings say.

* `Resolver.Finds`: a function that finds the values of the captures in a part of the list.
* `Resolver.Encloses`: what is nested in a capture.
* `Resolver.walk_eq`, `Resolver.inside_eq`: a walk visits the nested captures one after another.
* `Resolver.nestedOrText_eq`, `Resolver.backref_eq`, `Resolver.fold_eq`, `Resolver.substitute_eq`:
  what the walks gather.
-/

namespace PegMachine

namespace Resolver

variable {r : Resolver} {resolve : Nat → Except Fault Yield} {lo hi cursor next start stop : Nat}
  {first limit : Nat} {bindings : Bindings} {captures nested : List Capture} {capture : Capture}
  {content : Content}

/-- The captures that take up a part of the list, in the subject. -/
def Holds (r : Resolver) (lo cursor : Nat) (captures : List Capture) (hi next : Nat) : Prop :=
  Covers r.program r.entries lo cursor captures hi next ∧ hi ≤ r.subject.size

/-- The readings of captures of the list, behind the given groups. -/
def readings (r : Resolver) (bindings : Bindings) (captures : List Capture) : List Reading :=
  readAll r.subject r.arguments bindings captures

/-- The reading of a capture of the list, behind the given groups. -/
def reading (r : Resolver) (bindings : Bindings) (capture : Capture) : Reading :=
  capture.read r.subject r.arguments bindings

/-- The function finds the values of each capture between two places of the list. -/
def Finds (r : Resolver) (resolve : Nat → Except Fault Yield) (first limit : Nat) : Prop :=
  ∀ {lo cursor hi next bindings capture}, first ≤ cursor → next ≤ limit →
    Visible r cursor bindings → r.Holds lo cursor [capture] hi next →
    resolve cursor = (r.reading bindings capture).values.map fun values => ⟨values, next⟩

theorem Holds.uncons {others : List Capture}
    (h : r.Holds lo cursor (capture :: others) hi next) :
    ∃ mid after, r.Holds lo cursor [capture] mid after ∧ r.Holds mid after others hi next := by
  obtain ⟨mid, after, hhead, hrest⟩ := h.1.uncons
  exact ⟨mid, after, ⟨hhead, Nat.le_trans hrest.le_span h.2⟩, hrest, h.2⟩

theorem Holds.visible (h : r.Holds lo cursor [capture] hi next) (hv : Visible r cursor bindings) :
    Visible r next ((r.reading bindings capture).bindings ++ bindings) :=
  hv.capture h.1 h.2

/-- What is nested in the capture that starts at a place of the list. -/
inductive Encloses (r : Resolver) :
    (cursor start stop : Nat) → List Capture → (next : Nat) → Prop where
  | full {cursor start length index : Nat} {kind : CaptureKind}
      (hat : r.entries[cursor]? = some (.full kind index start length))
      (hsize : start + length ≤ r.subject.size) :
      Encloses r cursor start (start + length) [] (cursor + 1)
  | nest {cursor start stop last index : Nat} {kind : CaptureKind} {nested : List Capture}
      (hat : r.entries[cursor]? = some (.opened kind index start))
      (hnested : r.Holds start (cursor + 1) nested stop last)
      (hclosed : r.entries[last]? = some (.closed stop)) :
      Encloses r cursor start stop nested (last + 1)

theorem Encloses.le (h : r.Encloses cursor start stop nested next) :
    start ≤ stop ∧ stop ≤ r.subject.size := by
  cases h with
  | full _ hsize => exact ⟨Nat.le_add_right _ _, hsize⟩
  | nest _ hnested => exact ⟨hnested.1.le_span, hnested.2⟩

theorem Holds.encloses (h : r.Holds lo cursor [.node content start stop nested] hi next)
    (hdynamic : ∀ values, content ≠ .dynamic values) :
    r.Encloses cursor start stop nested next := by
  obtain ⟨h, hsize⟩ := h
  cases h with
  | full hat _ _ hrest =>
    have hle := hrest.le_span
    cases hrest
    exact .full hat (Nat.le_trans hle hsize)
  | dynamic => exact absurd rfl (hdynamic _)
  | nest hat _ _ _ hnested hclosed hrest =>
    have hle := hrest.le_span
    cases hrest
    exact .nest hat ⟨hnested, Nat.le_trans hle hsize⟩ hclosed

theorem text_eq (hle : start ≤ stop) (hstop : stop ≤ r.subject.size) :
    r.text start stop = .ok (r.subject.extract start stop) :=
  if_pos ⟨hle, hstop⟩

/-! ## Walks -/

section Walks

variable {σ : Type} {visit : σ → Nat → Except Fault (σ × Nat)}

theorem walk_closed {state : σ} (hclosed : r.entries[cursor]? = some (.closed stop)) :
    walk r.entries visit cursor state = .ok (state, stop, cursor + 1) := by
  obtain ⟨hlt, hget⟩ := Array.getElem?_eq_some_iff.1 hclosed
  rw [walk, dif_pos hlt, hget]

theorem walk_capture {state : σ} (h : r.Holds lo cursor [capture] hi next) :
    walk r.entries visit cursor state =
      match visit state cursor with
      | .error fault => .error fault
      | .ok (state, next) =>
        if cursor < next then walk r.entries visit next state else .error .malformedCaptures := by
  have hne : ∃ entry, r.entries[cursor]? = some entry ∧ ∀ pos, entry ≠ .closed pos := by
    cases h.1 with
    | full hat | dynamic hat | nest hat => exact ⟨_, hat, nofun⟩
  obtain ⟨entry, hat, hne⟩ := hne
  obtain ⟨hlt, hget⟩ := Array.getElem?_eq_some_iff.1 hat
  rw [walk, dif_pos hlt, hget]
  cases entry with
  | closed pos => exact absurd rfl (hne pos)
  | opened | full | dynamic => rfl

/-- A walk whose visits go on visits the captures one after another, with an invariant that may
depend on the position in the subject. -/
theorem walk_eq {step : σ → Reading → Except Fault σ} {inv : σ → Nat → Prop}
    (hvisit : ∀ {lo cursor hi next bindings capture state}, first ≤ cursor → next ≤ limit →
      Visible r cursor bindings → r.Holds lo cursor [capture] hi next → inv state lo →
      visit state cursor = (step state (r.reading bindings capture)).map (·, next) ∧
        ∀ state', step state (r.reading bindings capture) = .ok state' → inv state' hi)
    (hfirst : first ≤ cursor) (hlimit : next ≤ limit) (hv : Visible r cursor bindings)
    (h : r.Holds lo cursor captures hi next)
    (hclosed : r.entries[next]? = some (.closed stop)) {state : σ} (hinv : inv state lo) :
    walk r.entries visit cursor state =
      ((r.readings bindings captures).foldlM step state).map (·, stop, next + 1) := by
  induction captures generalizing lo cursor bindings state with
  | nil =>
    obtain ⟨h, -⟩ := h
    cases h
    exact walk_closed hclosed
  | cons capture others ih =>
    obtain ⟨mid, after, hhead, hrest⟩ := h.uncons
    have hle := hrest.1.le_next
    obtain ⟨hstep, hinv'⟩ := hvisit hfirst (Nat.le_trans hle hlimit) hv hhead hinv
    rw [walk_capture hhead, hstep, show r.readings bindings (capture :: others) =
      r.reading bindings capture ::
        r.readings ((r.reading bindings capture).bindings ++ bindings) others from rfl,
      List.foldlM_cons]
    cases hresult : step state (r.reading bindings capture) with
    | error fault => rfl
    | ok state' =>
      have hlt := hhead.1.lt_next
      have hrest' := ih (Nat.le_trans hfirst (Nat.le_of_lt hlt)) (hhead.visible hv) hrest
        (hinv' state' hresult)
      simp only [Except.map, if_pos hlt]
      exact hrest'

theorem walk_ok {inv : σ → List Reading → Prop}
    (hvisit : ∀ {lo cursor hi next bindings capture state done}, first ≤ cursor → next ≤ limit →
      Visible r cursor bindings → r.Holds lo cursor [capture] hi next → inv state done →
      ∃ state', visit state cursor = .ok (state', next) ∧
        inv state' (done ++ [r.reading bindings capture]))
    (hfirst : first ≤ cursor) (hlimit : next ≤ limit) (hv : Visible r cursor bindings)
    (h : r.Holds lo cursor captures hi next)
    (hclosed : r.entries[next]? = some (.closed stop)) {state : σ} {done : List Reading}
    (hinv : inv state done) :
    ∃ state', walk r.entries visit cursor state = .ok (state', stop, next + 1) ∧
      inv state' (done ++ r.readings bindings captures) := by
  induction captures generalizing lo cursor bindings state done with
  | nil =>
    obtain ⟨h, -⟩ := h
    cases h
    exact ⟨state, walk_closed hclosed, by simpa [readings, readAll] using hinv⟩
  | cons capture others ih =>
    obtain ⟨mid, after, hhead, hrest⟩ := h.uncons
    have hle := hrest.1.le_next
    have hlt := hhead.1.lt_next
    obtain ⟨state', hstep, hinv'⟩ := hvisit hfirst (Nat.le_trans hle hlimit) hv hhead hinv
    obtain ⟨result, hresult, hinv''⟩ :=
      ih (Nat.le_trans hfirst (Nat.le_of_lt hlt)) (hhead.visible hv) hrest hinv'
    refine ⟨result, ?_, ?_⟩
    · rw [walk_capture hhead, hstep]
      simp only [if_pos hlt]
      exact hresult
    · rw [List.append_assoc] at hinv''
      exact hinv''

theorem inside_eq {init : Nat → σ} (step : σ → Reading → Except Fault σ) (inv : σ → Nat → Prop)
    (hvisit : ∀ {lo cursor' hi next' bindings capture state}, cursor < cursor' → next' < next →
      Visible r cursor' bindings → r.Holds lo cursor' [capture] hi next' → inv state lo →
      visit state cursor' = (step state (r.reading bindings capture)).map (·, next') ∧
        ∀ state', step state (r.reading bindings capture) = .ok state' → inv state' hi)
    (h : r.Encloses cursor start stop nested next) (hv : Visible r cursor bindings)
    (hinv : inv (init start) start) :
    r.inside visit init cursor =
      ((r.readings bindings nested).foldlM step (init start)).map (⟨·, start, stop, next⟩) := by
  cases h with
  | full hat =>
    rw [inside, hat]
    rfl
  | nest hat hnested hclosed =>
    rw [inside, hat]
    simp only
    rw [walk_eq
      (fun hfirst hlimit => hvisit hfirst (Nat.lt_succ_of_le hlimit)) (Nat.le_refl (cursor + 1))
      (Nat.le_refl _) (hv.opened hat) hnested hclosed hinv]
    cases (r.readings bindings nested).foldlM step (init start) <;> rfl

theorem inside_ok (visit : σ → Nat → Except Fault (σ × Nat)) (init : Nat → σ)
    (inv : σ → List Reading → Prop)
    (hvisit : ∀ {lo cursor' hi next' bindings capture state done}, cursor < cursor' →
      next' < next → Visible r cursor' bindings → r.Holds lo cursor' [capture] hi next' →
      inv state done → ∃ state', visit state cursor' = .ok (state', next') ∧
        inv state' (done ++ [r.reading bindings capture]))
    (h : r.Encloses cursor start stop nested next) (hv : Visible r cursor bindings)
    (hinv : inv (init start) []) :
    ∃ state, r.inside visit init cursor = .ok ⟨state, start, stop, next⟩ ∧
      inv state (r.readings bindings nested) := by
  cases h with
  | full hat =>
    refine ⟨init start, ?_, hinv⟩
    rw [inside, hat]
  | nest hat hnested hclosed =>
    obtain ⟨state, hwalk, hstate⟩ := walk_ok
      (fun hfirst hlimit => hvisit hfirst (Nat.lt_succ_of_le hlimit)) (Nat.le_refl (cursor + 1))
      (Nat.le_refl _) (hv.opened hat) hnested hclosed hinv
    refine ⟨state, ?_, hstate⟩
    rw [inside, hat]
    simp only
    rw [hwalk]

end Walks

/-! ## Nested values -/

section Nested

/-- What the walk that collects values does at a nested capture. -/
def gatherStep (values : Array Value) (reading : Reading) : Except Fault (Array Value) :=
  reading.values.map fun more : List Value => values ++ more

theorem foldlM_gatherStep (readings : List Reading) (values : Array Value) :
    readings.foldlM gatherStep values =
      (nestedValues readings).map fun more : List Value => values ++ more := by
  induction readings generalizing values with
  | nil => simp [nestedValues, Except.map, pure, Except.pure]
  | cons reading rest ih =>
    rw [List.foldlM_cons, nestedValues, gatherStep]
    cases reading.values with
    | error fault => rfl
    | ok more =>
      simp only [Except.map, bind, Except.bind]
      rw [ih]
      cases nestedValues rest with
      | error fault => rfl
      | ok others =>
        refine congrArg Except.ok (Array.toList_inj.1 ?_)
        simp

theorem collect_eq (hf : r.Finds resolve (cursor + 1) next)
    (h : r.Encloses cursor start stop nested next) (hv : Visible r cursor bindings) :
    r.collect resolve cursor = (nestedValues (r.readings bindings nested)).map fun values =>
      ⟨values.toArray, start, stop, next⟩ := by
  rw [collect, inside_eq gatherStep (fun _ _ => True) ?_ h hv trivial,
    foldlM_gatherStep]
  · cases nestedValues (r.readings bindings nested) with
    | error fault => rfl
    | ok values => simp [Except.map]
  · intro lo cursor' hi next' bindings capture state hcursor hnext hv' hcapture _
    refine ⟨?_, fun _ _ => trivial⟩
    rw [gather, hf hcursor (Nat.le_of_lt hnext) hv' hcapture, gatherStep]
    cases (r.reading bindings capture).values <;> rfl

theorem nestedOrText_eq (hf : r.Finds resolve (cursor + 1) next)
    (h : r.Encloses cursor start stop nested next) (hv : Visible r cursor bindings) :
    r.nestedOrText resolve cursor =
      (nestedOr (r.subject.extract start stop) (r.readings bindings nested)).map (⟨·, next⟩) := by
  have htext := text_eq h.le.1 h.le.2
  rw [nestedOrText, collect_eq hf h hv, nestedOr]
  cases nestedValues (r.readings bindings nested) with
  | error fault => rfl
  | ok values => cases values <;> simp [Except.map, bind, Except.bind, pure, Except.pure, htext]

theorem textAndNested_eq (hf : r.Finds resolve (cursor + 1) next)
    (h : r.Encloses cursor start stop nested next) (hv : Visible r cursor bindings) :
    r.textAndNested resolve cursor = (nestedValues (r.readings bindings nested)).map fun values =>
      ⟨.str (r.subject.extract start stop) :: values, next⟩ := by
  have htext := text_eq h.le.1 h.le.2
  rw [textAndNested, collect_eq hf h hv]
  cases nestedValues (r.readings bindings nested) with
  | error fault => rfl
  | ok values => simp [Except.map, bind, Except.bind, pure, Except.pure, htext]

/-- A back reference gives what the latest visible group of its name is bound to. -/
theorem backref_eq (hf : ∀ limit, limit ≤ cursor → r.Finds resolve 0 limit)
    (hv : Visible r cursor bindings) (name : String) :
    r.backref resolve name cursor =
      ((bindings.lookup name).getD (.error (.backReference name))).map (⟨·, cursor + 1⟩) := by
  rcases hv.groupBelow_cases name with ⟨hlookup, hgroup⟩ |
    ⟨lo, hi, group, next, start, stop, nested, earlier, hle, hhi, hgroup, hv', hcapture, hlookup⟩
  · rw [backref, hgroup, hlookup]
    rfl
  · have hfinds : r.Finds resolve (group + 1) next := fun _ => hf next hle (Nat.zero_le _)
    rw [backref, hgroup, hlookup]
    simp only [bind, Except.bind]
    rw [nestedOrText_eq hfinds (Holds.encloses ⟨hcapture, hhi⟩ nofun) hv']
    rw [show r.readings earlier nested = readAll r.subject r.arguments earlier nested from rfl]
    cases nestedOr (r.subject.extract start stop) (readAll r.subject r.arguments earlier nested) <;>
      rfl

/-! ## Folds -/

/-- What the walk of a fold does at a nested capture. -/
def foldStep (f : FoldFunction) (acc : Option Value) (reading : Reading) :
    Except Fault (Option Value) := do
  match acc, ← reading.values with
  | some value, values => return some (f value values)
  | none, first :: _ => return some first
  | none, [] => throw .emptyFold

theorem foldlM_foldStep_some (f : FoldFunction) (readings : List Reading) (value : Value) :
    readings.foldlM (foldStep f) (some value) = (foldOnto f value readings).map some := by
  induction readings generalizing value with
  | nil => rfl
  | cons reading rest ih =>
    rw [List.foldlM_cons, foldStep, foldOnto]
    cases reading.values with
    | error fault => rfl
    | ok values => exact ih (f value values)

theorem foldlM_foldStep_none (f : FoldFunction) (readings : List Reading) :
    (readings.foldlM (foldStep f) none >>= fun acc => match acc with
      | some value => .ok value
      | none => .error .emptyFold) = folded f readings := by
  cases readings with
  | nil => rfl
  | cons reading rest =>
    rw [List.foldlM_cons, foldStep, folded]
    cases reading.values with
    | error fault => rfl
    | ok values =>
      cases values with
      | nil => rfl
      | cons value more =>
        show (rest.foldlM (foldStep f) (some value) >>= _) = foldOnto f value rest
        rw [foldlM_foldStep_some]
        cases foldOnto f value rest <;> rfl

theorem fold_eq (hf : r.Finds resolve (cursor + 1) next) (f : FoldFunction)
    (h : r.Encloses cursor start stop nested next) (hv : Visible r cursor bindings) :
    r.fold resolve f cursor =
      (folded f (r.readings bindings nested)).map fun value => ⟨[value], next⟩ := by
  rw [fold, inside_eq (foldStep f) (fun _ _ => True) ?_ h hv trivial,
    ← foldlM_foldStep_none]
  · cases (r.readings bindings nested).foldlM (foldStep f) none with
    | error fault => rfl
    | ok acc => cases acc <;> rfl
  · intro lo cursor' hi next' bindings capture acc hcursor hnext hv' hcapture _
    refine ⟨?_, fun _ _ => trivial⟩
    rw [combine, hf hcursor (Nat.le_of_lt hnext) hv' hcapture, foldStep]
    cases (r.reading bindings capture).values with
    | error fault => rfl
    | ok values => cases acc <;> cases values <;> rfl

/-! ## Substitutions -/

/-- What the walk of a substitution does at a nested capture. -/
def replaceStep (subject : Bytes) (state : Bytes × Nat) (reading : Reading) :
    Except Fault (Bytes × Nat) := do
  let before := subject.extract state.2 reading.start
  match ← firstText (← reading.values) with
  | some text => return (state.1 ++ before ++ text, reading.stop)
  | none => return (state.1 ++ before, reading.start)

/-- Captures one after another, with spans between `lo` and `hi`. -/
def Spaced (hi : Nat) : (lo : Nat) → List Reading → Prop
  | lo, [] => lo ≤ hi
  | lo, reading :: rest =>
    lo ≤ reading.start ∧ reading.start ≤ reading.stop ∧ Spaced hi reading.stop rest

theorem Spaced.mono {readings : List Reading} {lo' : Nat} (h : Spaced hi lo readings)
    (hle : lo' ≤ lo) : Spaced hi lo' readings := by
  cases readings with
  | nil => exact Nat.le_trans hle h
  | cons reading rest => exact ⟨Nat.le_trans hle h.1, h.2⟩

theorem Holds.spaced (h : r.Holds lo cursor captures hi next) :
    Spaced hi lo (r.readings bindings captures) := by
  induction captures generalizing lo cursor bindings with
  | nil => exact h.1.le_span
  | cons capture others ih =>
    obtain ⟨content, start, stop, nested⟩ := capture
    obtain ⟨mid, after, hhead, hrest⟩ := h.uncons
    obtain ⟨-, hlo, hle, hmid⟩ := hhead.1.start_eq
    exact ⟨hlo, hle, (ih hrest).mono hmid⟩

theorem replaced_split (subject : Bytes) {used mid : Nat} {readings : List Reading}
    (hle : used ≤ mid) (h : Spaced hi mid readings) :
    replaced subject used hi readings =
      (replaced subject mid hi readings).map (subject.extract used mid ++ ·) := by
  have hextract : ∀ {last : Nat}, mid ≤ last →
      subject.extract used last = subject.extract used mid ++ subject.extract mid last :=
    fun hlast => by
      rw [Array.extract_append_extract, Nat.min_eq_left hle, Nat.max_eq_right hlast]
  cases readings with
  | nil => rw [replaced, replaced, hextract h, Except.map]
  | cons reading rest =>
    rw [replaced, replaced, hextract h.1]
    cases reading.values with
    | error fault => rfl
    | ok values =>
      simp only [bind, Except.bind]
      cases firstText values with
      | error fault => rfl
      | ok text =>
        cases replaced subject reading.stop hi rest with
        | error fault => rfl
        | ok behind => simp only [pure, Except.pure, Except.map, Array.append_assoc]

theorem foldlM_replaceStep (subject : Bytes) {readings : List Reading} {used : Nat}
    (h : Spaced hi used readings) (done : Bytes) :
    ((readings.foldlM (replaceStep subject) (done, used)).map fun state =>
        state.1 ++ subject.extract state.2 hi) =
      (replaced subject used hi readings).map (done ++ ·) := by
  induction readings generalizing done used with
  | nil => rfl
  | cons reading rest ih =>
    obtain ⟨hstart, hspan, hrest⟩ := h
    rw [List.foldlM_cons, replaceStep, replaced]
    cases reading.values with
    | error fault => rfl
    | ok values =>
      simp only [bind, Except.bind]
      cases firstText values with
      | error fault => rfl
      | ok text =>
        cases text with
        | some text =>
          simp only [pure, Except.pure, ih hrest, Option.getD_some]
          cases replaced subject reading.stop hi rest with
          | error fault => rfl
          | ok behind => simp [Except.map]
        | none =>
          simp only [pure, Except.pure, ih (hrest.mono hspan), Option.getD_none]
          rw [replaced_split subject hspan hrest]
          cases replaced subject reading.stop hi rest with
          | error fault => rfl
          | ok behind => simp only [Except.map, Array.append_assoc]

theorem replacement_eq {values : Values} (h : resolve cursor = values.map (⟨·, next⟩)) :
    replacement resolve cursor = (values >>= firstText).map (·, next) := by
  rw [replacement, h]
  cases values with
  | error fault => rfl
  | ok values =>
    cases values with
    | nil => rfl
    | cons value more =>
      simp only [Except.map, bind, Except.bind, firstText]
      cases value.text? <;> rfl

/-- What a substitution keeps before a nested capture, and what it puts in its place. -/
theorem replace_eq {state : Bytes × Nat} (hf : r.Finds resolve first limit)
    (hfirst : first ≤ cursor) (hlimit : next ≤ limit) (hv : Visible r cursor bindings)
    (h : r.Holds lo cursor [capture] hi next) (hused : state.2 ≤ lo) :
    r.replace resolve state cursor =
      (replaceStep r.subject state (r.reading bindings capture)).map (·, next) := by
  obtain ⟨content, start, stop, nested⟩ := capture
  obtain ⟨⟨entry, hat, hstart⟩, hlo, hle, hstop⟩ := h.1.start_eq
  have htext : r.text state.2 start = .ok (r.subject.extract state.2 start) :=
    text_eq (Nat.le_trans hused hlo) (Nat.le_trans hle (Nat.le_trans hstop h.2))
  have hreplacement := replacement_eq (hf hfirst hlimit hv h)
  rw [replace, hat, h.1.stop?_eq]
  simp only [present, bind, Except.bind, hstart, htext, hreplacement, replaceStep]
  rw [show (r.reading bindings (.node content start stop nested)).start = start from rfl]
  cases (r.reading bindings (.node content start stop nested)).values with
  | error fault => rfl
  | ok values =>
    simp only
    cases firstText values with
    | error fault => rfl
    | ok text => cases text <;> rfl

theorem Encloses.spaced (h : r.Encloses cursor start stop nested next) :
    Spaced stop start (r.readings bindings nested) := by
  cases h with
  | full => exact Nat.le_add_right _ _
  | nest _ hnested => exact hnested.spaced

theorem replaceStep_le {subject : Bytes} {state state' : Bytes × Nat} {reading : Reading}
    (h : replaceStep subject state reading = .ok state') (hle : reading.start ≤ reading.stop) :
    state'.2 ≤ reading.stop := by
  rw [replaceStep] at h
  cases hvalues : reading.values with
  | error fault =>
    rw [hvalues] at h
    cases h
  | ok values =>
    rw [hvalues] at h
    simp only [bind, Except.bind] at h
    cases htext : firstText values with
    | error fault =>
      rw [htext] at h
      cases h
    | ok text =>
      rw [htext] at h
      cases text with
      | some text =>
        cases h
        exact Nat.le_refl _
      | none =>
        cases h
        exact hle

theorem foldlM_replaceStep_le {subject : Bytes} {readings : List Reading}
    {state state' : Bytes × Nat} (h : readings.foldlM (replaceStep subject) state = .ok state')
    (hspaced : Spaced hi state.2 readings) : state'.2 ≤ hi := by
  induction readings generalizing state with
  | nil =>
    cases h
    exact hspaced
  | cons reading rest ih =>
    obtain ⟨hstart, hspan, hrest⟩ := hspaced
    rw [List.foldlM_cons] at h
    cases hstep : replaceStep subject state reading with
    | error fault =>
      rw [hstep] at h
      cases h
    | ok mid =>
      rw [hstep] at h
      exact ih h (hrest.mono (replaceStep_le hstep hspan))

theorem substitute_eq (hf : r.Finds resolve (cursor + 1) next)
    (h : r.Encloses cursor start stop nested next) (hv : Visible r cursor bindings) :
    r.substitute resolve cursor =
      (replaced r.subject start stop (r.readings bindings nested)).map (·, next) := by
  have hspaced : Spaced stop start (r.readings bindings nested) := h.spaced
  have hreplaced := foldlM_replaceStep r.subject hspaced #[]
  rw [substitute, inside_eq (replaceStep r.subject) (fun state lo => state.2 ≤ lo) ?_ h hv
    (Nat.le_refl _)]
  · cases hstate : (r.readings bindings nested).foldlM (replaceStep r.subject) (#[], start) with
    | error fault =>
      rw [hstate] at hreplaced
      cases hresult : replaced r.subject start stop (r.readings bindings nested) with
      | error fault' =>
        rw [hresult] at hreplaced
        cases hreplaced
        rfl
      | ok text =>
        rw [hresult] at hreplaced
        cases hreplaced
    | ok state =>
      have htext : r.text state.2 stop = .ok (r.subject.extract state.2 stop) :=
        text_eq (foldlM_replaceStep_le hstate hspaced) h.le.2
      rw [hstate] at hreplaced
      cases hresult : replaced r.subject start stop (r.readings bindings nested) with
      | error fault =>
        rw [hresult] at hreplaced
        cases hreplaced
      | ok text =>
        rw [hresult] at hreplaced
        have heq : state.1 ++ r.subject.extract state.2 stop = text := by
          simpa [Except.map] using hreplaced
        simp [Except.map, bind, Except.bind, pure, Except.pure, htext, heq]
  · intro lo cursor' hi next' bindings capture state hcursor hnext hv' hcapture hused
    refine ⟨replace_eq hf hcursor (Nat.le_of_lt hnext) hv' hcapture hused, fun state' hstep => ?_⟩
    obtain ⟨content, start, stop, nested⟩ := capture
    obtain ⟨-, -, hle, hstop⟩ := hcapture.1.start_eq
    exact Nat.le_trans (replaceStep_le hstep hle) hstop

end Nested

end Resolver

end PegMachine
