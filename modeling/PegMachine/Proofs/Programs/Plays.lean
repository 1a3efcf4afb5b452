import PegMachine.Proofs.Programs.Callbacks

/-!
# Plays before and after the passes

* `Instr.shows`: the instructions that may leave a mark on the play of a run.
* `Setting.playFrom`: the play of a run, from its first instruction and the play of what follows.
* `Aim.plays`: the aim that the run of a program has a given play.
* `Run.exists_plays`: a run has a play, of which holds whatever carries over from step to step.
* `Run.plays_moved`, `Run.plays_threaded`: **code has the same play before and after each pass.**
-/

namespace PegMachine

open Block

/-- Whether an instruction may leave a mark on the play: it pushes a frame or calls a function. -/
def Instr.shows : Instr → Bool
  | .choice .. | .call _ | .matcher _ | .closeMatchTime => true
  | _ => false

/-- The play of a run, from its first instruction and the play of what follows. Where the stack is
full, nothing does. -/
def Setting.playFrom (m : Setting) (c : Config) (instr : Instr) (play : Play) : Play :=
  if instr.pushes ∧ m.limits.maxStack.any (· ≤ c.frames.length + 1) then
    ⟨[], .faulted .stackOverflow⟩
  else ⟨(m.callbackOf? c.pos c.captures instr).toList ++ play.calls, play.outcome⟩

/-- The aim that the run of a program has a given play. -/
def Aim.plays (m : Setting) (start : Nat) (play : Play) : Aim where
  holds c := m.Plays (m.stateOf start c) play
  failed := play = ⟨[], .unmatched⟩
  crashed fault := play = ⟨[], .faulted fault⟩

section

variable {m m' : Setting} {answers : Answers} {outline code code' : Block} {o : Origin}
  {c c' : Config} {instr instr' : Instr} {play : Play} {r : Answer} {start k : Nat}

/-! ## Steps of a play -/

theorem Setting.playFrom_of_not_shows (h : instr.shows = false) :
    m.playFrom c instr play = play := by
  cases instr with
  | choice | call | matcher | closeMatchTime => cases h
  | _ => exact if_neg nofun

theorem Setting.execute_of_next (start : Nat) (hpushes : instr.pushes = false)
    (hmove : c.perform (m.move (fun _ _ _ => none) c.pos c.captures instr) = .next c') :
    ∃ event, m.execute (m.stateOf start c) instr = .next (m.stateOf start c') event := by
  have hfree : ∃ event,
      (m.limitedTo none).execute (m.stateOf start c) instr = .next (m.stateOf start c') event := by
    have hfollows : (m.limitedTo none).Follows start (.next c')
        ((m.limitedTo none).execute (m.stateOf start c) instr) := by
      have hsame : (m.limitedTo none).move (fun _ _ _ => none) c.pos c.captures instr =
          m.move (fun _ _ _ => none) c.pos c.captures instr := by
        cases instr with
        | span bytes =>
          have hsubject : (m.limitedTo none).subject = m.subject := rfl
          exact congrArg (Move.advance · c.captures) (spanStop_congr hsubject bytes c.pos)
        | _ => rfl
      rw [← hmove, ← hsame]
      exact follows_execute (m := m.limitedTo none) instr
    rcases hfollows with hnext | ⟨limit, hlimit, -⟩
    · exact hnext
    · cases hlimit
  cases hmax : m.limits.maxStack with
  | none =>
    rwa [show m.limitedTo none = m by rw [← hmax]; rfl] at hfree
  | some limit =>
    have hsame : m.limitedTo (some limit) = m := by rw [← hmax]; rfl
    rwa [← execute_limitedTo hpushes, hsame] at hfree

theorem Setting.room_of_pushFrame {s s' : State} {frame : Frame} {off : Int} {event : Option Event}
    (h : m.pushFrame s frame off = .next s' event) :
    m.limits.maxStack.any (· ≤ s.stack.size) = false := by
  unfold Setting.pushFrame at h
  dsimp only at h
  split at h
  · cases h
  · next hroom =>
    cases hmax : m.limits.maxStack with
    | none => rfl
    | some limit => simpa [hmax] using hroom

theorem Setting.callback?_of_getElem? (start : Nat) (hinstr : m.program.code[c.address]? = some instr) :
    m.callback? (m.stateOf start c) = m.callbackOf? c.pos c.captures instr := by
  rw [callback?, show m.program.code[(m.stateOf start c).address]? = _ from hinstr]
  rfl

theorem Setting.plays_of_pushes (hpushes : instr.pushes = true)
    (hinstr : m.program.code[c.address]? = some instr)
    (h : (Aim.plays m start play).After
      (c.perform (m.move (fun _ _ _ => none) c.pos c.captures instr))) :
    m.Plays (m.stateOf start c) (m.playFrom c instr play) := by
  have hstep := step_of_getElem? (s := m.stateOf start c) hinstr
  have hcall := callback?_of_getElem? start hinstr
  have hfollows : m.Follows start (c.perform (m.move (fun _ _ _ => none) c.pos c.captures instr))
      (m.execute (m.stateOf start c) instr) := follows_execute instr
  have hpush : ∃ c' frame off, c.perform (m.move (fun _ _ _ => none) c.pos c.captures instr) =
        .next c' ∧ c'.frames.length = c.frames.length + 1 ∧
      m.execute (m.stateOf start c) instr = m.pushFrame (m.stateOf start c) frame off ∧
      m.callbackOf? c.pos c.captures instr = none := by
    cases instr with
    | choice => exact ⟨_, _, _, rfl, rfl, rfl, rfl⟩
    | call => exact ⟨_, _, _, rfl, rfl, rfl, rfl⟩
    | _ => cases hpushes
  obtain ⟨c', frame, off, hmove, hlength, hexec, hnone⟩ := hpush
  rw [hmove] at h hfollows
  rw [hnone] at hcall
  rcases hfollows with ⟨event, hnext⟩ | ⟨limit, hlimit, -, hle, hhalt⟩
  · have hroom := room_of_pushFrame (hexec.symm.trans hnext)
    rw [size_stateOf] at hroom
    have hplays := Plays.next (hstep.trans hnext) h
    rw [hcall] at hplays
    rw [playFrom, if_neg (by simp [hroom]), hnone]
    exact hplays
  · have hplays := Plays.halt (hstep.trans hhalt) nofun
    rw [hcall] at hplays
    rw [playFrom, if_pos ⟨hpushes, by simpa [hlimit, hlength] using hle⟩]
    exact hplays

theorem Setting.plays_exit (hcode : m.program.HasCode code) (haddr : c.address = code.length) :
    m.Plays (m.stateOf start c) ⟨[], m.outcomeOf (.matched c.pos c.captures)⟩ := by
  have hinstr : m.program.code[c.address]? = some .done := haddr ▸ hcode.getElem?_done
  have hstep : m.step (m.stateOf start c) =
      .halt (m.outcomeOf (.matched c.pos c.captures)) (some (.matchEnded c.pos)) :=
    step_done (s := m.stateOf start c) hinstr
  have hplays := Plays.halt hstep (m.outcomeOf_ne_unfinished _)
  rwa [callback?_of_getElem? start hinstr] at hplays

theorem Setting.plays_gaveUp (hcode : m.program.HasCode code) :
    m.Plays (m.gaveUp start) ⟨[], .unmatched⟩ := by
  have hinstr : m.program.code[(m.gaveUp start).address]? = some .giveUp := hcode.getElem?_giveUp
  have hstep : m.step (m.gaveUp start) = .halt .unmatched (some .matchFailed) := by
    rw [step_of_getElem? hinstr]
    rfl
  have hplays := Plays.halt hstep nofun
  rwa [callback?, hinstr] at hplays

/-- **The play from an instruction**, from what its move leads to. -/
theorem Setting.plays_of_after (hcode : m.program.HasCode code)
    (hinstr : code[c.address]? = some instr)
    (h : (Aim.plays m start play).After
      (c.perform (m.move (fun _ _ _ => none) c.pos c.captures instr))) :
    m.Plays (m.stateOf start c) (m.playFrom c instr play) := by
  have hinstr' := hcode.getElem?_of_code hinstr
  cases hpushes : instr.pushes with
  | true => exact plays_of_pushes hpushes hinstr' h
  | false =>
    have hstep := step_of_getElem? (s := m.stateOf start c) hinstr'
    have hfollows : m.Follows start
        (c.perform (m.move (fun _ _ _ => none) c.pos c.captures instr))
        (m.execute (m.stateOf start c) instr) := follows_execute instr
    rw [playFrom, if_neg (by simp [hpushes]), ← callback?_of_getElem? start hinstr']
    cases hmove : c.perform (m.move (fun _ _ _ => none) c.pos c.captures instr) with
    | next c' =>
      rw [hmove] at h
      obtain ⟨event, hnext⟩ := execute_of_next start hpushes hmove
      exact .next (hstep.trans hnext) h
    | failed =>
      rw [hmove] at h hfollows
      obtain ⟨event, hnext⟩ := hfollows
      obtain rfl : play = ⟨[], .unmatched⟩ := h
      exact .next (hstep.trans hnext) (plays_gaveUp hcode)
    | crashed fault =>
      rw [hmove] at h hfollows
      obtain rfl : play = ⟨[], .faulted fault⟩ := h
      rw [List.append_nil]
      exact .halt (hstep.trans hfollows) nofun
    | stuck =>
      rw [hmove] at h
      exact h.elim

/-! ## Plays of runs -/

/-- The play from an instruction does not depend on the code around it. -/
theorem Setting.playFrom_onCode (m : Setting) (code : Block) :
    (m.onCode code).playFrom = m.playFrom := by
  funext c instr play
  rw [playFrom, playFrom, callbackOf?_onCode]
  rfl

theorem Setting.plays_onCode (hinstr : code[c.address]? = some instr)
    (h : (Aim.plays (m.onCode code) start play).After
      (c.perform (m.move (fun _ _ _ => none) c.pos c.captures instr))) :
    (Aim.plays (m.onCode code) start (m.playFrom c instr play)).holds c := by
  rw [← m.move_onCode code] at h
  rw [← m.playFrom_onCode code]
  exact plays_of_after (m.hasCode_onCode code) hinstr h

theorem Setting.plays_onCode_exit (haddr : c.address = code.length) :
    (Aim.plays (m.onCode code) start ⟨[], m.outcomeOf (.matched c.pos c.captures)⟩).holds c := by
  rw [← m.outcomeOf_onCode code]
  exact plays_exit (m.hasCode_onCode code) haddr

/-- **A run has a play**, of which holds whatever holds at the end and carries over from step to
step. -/
theorem Run.exists_plays {K : Play → Config → Prop}
    (h : Run m (fun _ _ _ => none) outline code o c r)
    (hexit : ∀ c, c.address = code.length → c.frames = [] → Sound m o c →
      K ⟨[], m.outcomeOf (.matched c.pos c.captures)⟩ c)
    (hstep : ∀ {c instr play}, code[c.address]? = some instr → Sound m o c →
      instr.Ready m (fun _ _ _ => none) outline o c →
      Aim.After ⟨K play, play = ⟨[], .unmatched⟩, fun fault => play = ⟨[], .faulted fault⟩⟩
        (c.perform (m.move (fun _ _ _ => none) c.pos c.captures instr)) →
      K (m.playFrom c instr play) c) :
    ∃ play, (Aim.plays (m.onCode code) start play).holds c ∧ K play c := by
  induction h with
  | exit haddr hframes hs => exact ⟨_, Setting.plays_onCode_exit haddr, hexit _ haddr hframes hs⟩
  | next hinstr hs hr hmove _ ih =>
    obtain ⟨play, hplays, hK⟩ := ih
    exact ⟨m.playFrom _ _ play, Setting.plays_onCode hinstr (by rw [hmove]; exact hplays),
      hstep hinstr hs hr (by rw [hmove]; exact hK)⟩
  | failed hinstr hs hr hmove =>
    exact ⟨m.playFrom _ _ ⟨[], .unmatched⟩, Setting.plays_onCode hinstr (by rw [hmove]; rfl),
      hstep hinstr hs hr (by rw [hmove]; rfl)⟩
  | @crashed c instr fault hinstr hs hr hmove =>
    exact ⟨m.playFrom _ _ ⟨[], .faulted fault⟩, Setting.plays_onCode hinstr (by rw [hmove]; rfl),
      hstep hinstr hs hr (by rw [hmove]; rfl)⟩

/-! ## Before and after the passes -/

/-- A configuration at an instruction that leaves no mark on the play. -/
def Quiet (code : Block) (c : Config) : Prop :=
  ∀ instr, code[c.address]? = some instr → instr.shows = false

theorem Quiet.of_getElem? (hinstr : code[c.address]? = some instr) (h : instr.shows = false) :
    Quiet code c := by
  intro instr' hinstr'
  rw [hinstr] at hinstr'
  cases hinstr'
  exact h

/-- Where instructions leave no mark, a play is taken back along the code. -/
theorem Aim.takenBack_plays : (Aim.plays (m.onCode code) start play).TakenBack m
    (fun _ _ _ => none) outline code o (Quiet code) := by
  refine ⟨fun {c instr} hc hinstr _ _ h => ?_⟩
  have hplays := Setting.plays_onCode hinstr h
  rwa [Setting.playFrom_of_not_shows (hc instr hinstr)] at hplays

theorem Instr.shows_of_moves
    (h : instr.isCheck = true ∨ ∃ kind back index, instr = .openCapture kind back index) :
    instr.shows = false := by
  rcases h with hcheck | ⟨_, _, _, rfl⟩
  · cases instr with
    | choice | call | matcher | closeMatchTime => cases hcheck
    | _ => rfl
  · rfl

theorem goodAtMoved_quiet : GoodAtMoved code (Quiet code) :=
  fun hinstr hkind => .of_getElem? hinstr (Instr.shows_of_moves hkind)

theorem Quiet.moved (h : Quiet code c) (haligned : Aligned code code' (jumpTargets code) 0 none) :
    Quiet code' c := by
  intro instr hinstr
  rcases moved_getElem? haligned hinstr with hsame | hkind
  · exact h instr hsame
  · exact Instr.shows_of_moves hkind

theorem Instr.start?_of_shows (h : instr.shows = true) : instr.start? = none := by
  cases instr with
  | openCapture => cases h
  | _ => rfl

/-- **The code and the moved code have the same play.** -/
theorem Run.plays_moved (h : Run m (fun _ _ _ => none) outline code o c r) (hcont : Contained code)
    (haligned : Aligned code code' (jumpTargets code) 0 none) (start : Nat) :
    ∃ play, (Aim.plays (m.onCode code) start play).holds c ∧
      ((Aim.plays (m.onCode code') start play).moved code code' o).holds c := by
  have hback : ∀ play, (Aim.plays (m.onCode code') start play).TakenBack m (fun _ _ _ => none)
      outline code' o (Quiet code') := fun play => Aim.takenBack_plays
  refine h.exists_plays (fun c haddr _ hs _ => ?_) fun {c instr play} hinstr hs hr hafter => ?_
  · exact .exit (hback _) goodAtMoved_quiet haddr hs
      (Setting.plays_onCode_exit (haddr.trans (length_movedFrom haligned).symm))
  · cases hshows : instr.shows with
    | false =>
      have hquiet : Quiet code c := .of_getElem? hinstr hshows
      rw [Setting.playFrom_of_not_shows hshows]
      exact ((hback play).moved hcont haligned goodAtMoved_quiet fun _ hc _ _ =>
        hc.moved haligned).step hquiet hinstr hs hr hafter
    | true =>
      intro hframes
      refine .of_passed (hback _) goodAtMoved_quiet hs hinstr (fun hnone => ?_)
        fun n p captures _ hcheck => ?_
      · obtain ⟨hinstr', hnext⟩ := hnone.keep hinstr (Instr.start?_of_shows hshows)
        exact Setting.plays_onCode hinstr' (Aim.After.of_moved hafter fun c' hstep =>
          Config.perform_leads hnext (fun _ => aligned_of_move hcont haligned hinstr) hframes hstep)
      · rw [Instr.shows_of_moves (.inl hcheck)] at hshows
        cases hshows

theorem ThreadedAs.shows_eq (h : ThreadedAs code k instr instr') : instr'.shows = instr.shows := by
  cases h with
  | same => rfl
  | jump => cases instr <;> rfl

theorem Quiet.threaded (h : Quiet code c) (hcode : AllThreaded code code'.toArray)
    (haddr : c'.address = c.address) : Quiet code' c' := by
  intro instr hinstr
  rw [← List.getElem?_toArray, haddr] at hinstr
  obtain ⟨source, hsource, hthreaded⟩ := hcode.getElem? hinstr
  rw [hthreaded.shows_eq]
  exact h source hsource

theorem Setting.playFrom_threaded (h : ThreadedAs code k instr instr')
    (hc : (threading code).OnConfigs c c') : m.playFrom c' instr' play = m.playFrom c instr play := by
  have hlength : c'.frames.length = c.frames.length := hc.frames.length_eq.symm
  have hsame : instr'.pushes = instr.pushes ∧
      m.callbackOf? c.pos c.captures instr' = m.callbackOf? c.pos c.captures instr := by
    cases h with
    | same => exact ⟨rfl, rfl⟩
    | jump => cases instr <;> exact ⟨rfl, rfl⟩
  rw [playFrom, playFrom, hlength, hc.pos, hc.captures_eq, hsame.1, hsame.2]

/-- A chain of jumps does not begin at an instruction that leaves a mark. -/
theorem Leads.eq_of_shows {n stop : Nat} (h : Leads code n stop) (hinstr : code[n]? = some instr)
    (hshows : instr.shows = true) : stop = n := by
  cases h with
  | refl => rfl
  | jump hjump =>
    rw [hinstr] at hjump
    cases hjump
    cases hshows

theorem Setting.move_ne_jump {pos : Nat} {captures : Array Entry} {off : Int}
    (hshows : instr.shows = true) : m.move answers pos captures instr ≠ .jump off := by
  intro h
  have hoff : instr.offset? = some off := offset?_move (by rw [h]; rfl)
  cases instr with
  | choice | call => cases h
  | matcher | closeMatchTime => cases hoff
  | _ => cases hshows

/-- **The code and the threaded code have the same play.** -/
theorem Run.plays_threaded (h : Run m (fun _ _ _ => none) outline code o c r)
    (hcode : AllThreaded code code'.toArray) (start : Nat) :
    ∃ play, (Aim.plays (m.onCode code) start play).holds c ∧
      ((Aim.plays (m.onCode code') start play).threaded code).holds c := by
  have hback : ∀ play, (Aim.plays (m.onCode code') start play).TakenBack m (fun _ _ _ => none)
      outline code' o (Quiet code') := fun play => Aim.takenBack_plays
  refine h.exists_plays (fun c haddr _ _ c' hboth => ?_) fun {c instr play} hinstr hs hr hafter => ?_
  · have hleads : Leads code c.address c'.address := hboth.address
    have haddr' : c'.address = code'.length := by
      rw [hleads.eq_of_length_le (Nat.le_of_eq haddr.symm), haddr]
      exact hcode.1.symm
    rw [← hboth.pos, ← hboth.captures_eq]
    exact Setting.plays_onCode_exit haddr'
  · cases hshows : instr.shows with
    | false =>
      have hquiet : Quiet code c := .of_getElem? hinstr hshows
      rw [Setting.playFrom_of_not_shows hshows]
      exact ((hback play).threaded hcode fun _ _ hc _ haddr => hc.threaded hcode haddr).step hquiet
        hinstr hs hr hafter
    | true =>
      intro c' hboth
      have hleads : Leads code c.address c'.address := hboth.address
      have haddr := hleads.eq_of_shows hinstr hshows
      obtain ⟨instr', hinstr', hthreaded⟩ := hcode.2 _ _ hinstr
      rw [List.getElem?_toArray, ← haddr] at hinstr'
      rw [← Setting.playFrom_threaded hthreaded hboth]
      refine Setting.plays_onCode hinstr' (Aim.After.of_threaded hafter ?_)
      rcases Setting.move_threads m _ hthreaded with hmove | ⟨d, hjump, -⟩
      · rw [hboth.pos, hboth.captures_eq]
        exact Likeness.OnMoves.perform (haddr.symm ▸ hmove) hboth haddr.symm
      · exact absurd hjump (Setting.move_ne_jump hshows)

end

end PegMachine
