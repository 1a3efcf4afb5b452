import PegMachine.Proofs.Blocks.Layout
import PegMachine.Proofs.Machine.Trace

/-!
# Runs of a block inside larger code

A block does inside larger code what it does on its own: its addresses are shifted, and the frames
pending around it stay below its own.

* `Config.embed`: a configuration of a block as one of the code around it.
* `Carries`: the larger code has the instructions of the block, from the first one that is entered
  on.
* `Aim.Continues`: how the larger code comes to an aim after an answer. `Continues`: how it ends.
* **`Aim.TakenBack.carried`**: if the larger code comes to an aim after the answer of the block, it
  does from the entry of the block.
* **`Run.carried`**: the case of the aim to end with an answer.
* `Block.Runs.within`: the case of a block that stands in the code. `Rises.within`: it has as many
  frames pending there.
-/

namespace PegMachine

/-! ## Shifted configurations -/

namespace Frame

/-- Where a frame leads to. -/
def address : Frame → Nat
  | .ret address => address
  | .choice point => point.address

/-- A frame with its address shifted. -/
def shift (n : Nat) : Frame → Frame
  | .ret address => .ret (n + address)
  | .choice point => .choice { point with address := n + point.address }

end Frame

namespace Pending

/-- A pending frame with its addresses shifted. -/
def shift (n : Nat) (p : Pending) : Pending := ⟨p.frame.shift n, n + p.owner⟩

end Pending

/-- The frames lead to addresses with a property. -/
def FramesLead (P : Nat → Prop) (frames : List Pending) : Prop :=
  ∀ p ∈ frames, P p.frame.address

/-- A configuration of a block that stands at address `n`, above the given frames. -/
def Config.embed (n : Nat) (below : List Pending) (c : Config) : Config :=
  ⟨n + c.address, c.pos, c.frames.map (Pending.shift n) ++ below, c.captures⟩

section Moves

variable {m : Setting} {c c' : Config} {mv : Move} {n : Nat} {below : List Pending}

theorem Setting.offset?_move {answers : Answers} {pos : Nat} {captures : Array Entry}
    {instr : Instr} {off : Int} (h : (m.move answers pos captures instr).offset? = some off) :
    instr.offset? = some off := by
  have refuse : ∀ {fail : Int}, (Move.refuse fail).offset? = some off → fail = off ∧ fail ≠ 0 := by
    intro fail h
    unfold Move.refuse at h
    split at h
    · cases h
    · next hne =>
      cases h
      exact ⟨rfl, hne⟩
  cases instr with
  | any k fail | char b fail | set s fail =>
    rw [Setting.move] at h
    split at h
    · cases h
    · obtain ⟨rfl, hne⟩ := refuse h
      simp [Instr.offset?, hne]
  | choice | jump | call | commit | partialCommit | backCommit =>
    cases h
    rfl
  | span | ret | done | failTwice | fail | giveUp | fullCapture | emptyCapture
  | emptyCaptureConst | openCapture | closeCapture => cases h
  | openCall rule =>
    rw [Setting.move] at h
    cases hanswer : answers rule pos captures with
    | none => simp [hanswer, Move.ofAnswer, Move.offset?] at h
    | some found =>
      obtain ⟨r, k⟩ := found
      cases r <;> simp [hanswer, Move.ofAnswer, Move.offset?] at h
  | matcher index =>
    rw [Setting.move] at h
    split at h
    · unfold Setting.matcherMove at h
      split at h
      · cases h
      · split at h <;> cases h
    · cases h
  | closeMatchTime =>
    simp only [Setting.move, Setting.closeMatchTimeMove, Setting.matchTimeMove] at h
    repeat' split at h
    all_goals cases h

theorem Setting.move_congr (answers answers' : Answers) {pos : Nat} {captures : Array Entry}
    {instr : Instr} (h : ∀ rule, instr ≠ .openCall rule) :
    m.move answers pos captures instr = m.move answers' pos captures instr := by
  cases instr with
  | openCall rule => exact absurd rfl (h rule)
  | _ => rfl

theorem latestChoice?_shift (frames below : List Pending) :
    latestChoice? (frames.map (Pending.shift n) ++ below) =
      match latestChoice? frames with
      | some (point, rest) =>
        some ({ point with address := n + point.address }, rest.map (Pending.shift n) ++ below)
      | none => latestChoice? below := by
  induction frames with
  | nil => rfl
  | cons p frames ih =>
    obtain ⟨_ | point, owner⟩ := p
    · simpa [latestChoice?, Pending.shift, Frame.shift] using ih
    · simp [latestChoice?, Pending.shift, Frame.shift]

theorem Config.target_embed {off : Int} (h : 0 ≤ c.address + off) :
    (c.embed n below).target off = n + c.target off := by
  simp only [Config.target, Config.embed]
  omega

theorem Config.backtrackTo_embed {frames : List Pending}
    (h : c.backtrackTo frames = .next c') :
    (c.embed n below).backtrackTo (frames.map (Pending.shift n) ++ below) =
      .next (c'.embed n below) := by
  rw [Config.backtrackTo] at h ⊢
  rw [latestChoice?_shift]
  cases hl : latestChoice? frames with
  | none => simp [hl] at h
  | some found =>
    rw [hl] at h
    cases h
    rfl

theorem Config.popChoice_eq_next {use : ChoicePoint → Nat → List Pending → Config}
    (h : c.popChoice use = .next c') :
    ∃ point owner rest, c.frames = ⟨.choice point, owner⟩ :: rest ∧ use point owner rest = c' := by
  unfold Config.popChoice at h
  split at h
  · next point owner rest hf =>
    cases h
    exact ⟨point, owner, rest, hf, rfl⟩
  · cases h

/-- A block moves inside larger code as it does on its own. -/
theorem Config.perform_embed (hoff : ∀ off, mv.offset? = some off → 0 ≤ c.address + off)
    (h : c.perform mv = .next c') :
    (c.embed n below).perform mv = .next (c'.embed n below) := by
  cases mv with
  | advance pos captures =>
    cases h
    rfl
  | jump off =>
    cases h
    rw [Config.perform, Config.target_embed (hoff off rfl)]
    rfl
  | call off =>
    cases h
    rw [Config.perform, Config.target_embed (hoff off rfl)]
    rfl
  | choose off back =>
    cases h
    rw [Config.perform, Config.target_embed (hoff off rfl)]
    rfl
  | ret =>
    rw [Config.perform] at h
    split at h
    · next address owner rest hf =>
      cases h
      simp [Config.perform, Config.embed, hf, Pending.shift, Frame.shift]
    · cases h
  | commit off | renew off | rewind off =>
    obtain ⟨point, owner, rest, hf, rfl⟩ := Config.popChoice_eq_next h
    rw [Config.perform, Config.target_embed (hoff off rfl)]
    simp [Config.popChoice, Config.embed, hf, Pending.shift, Frame.shift]
  | fail => exact Config.backtrackTo_embed h
  | failTwice =>
    rw [Config.perform] at h
    split at h
    · next p rest hf =>
      have hb : _ = Progress.next (c'.embed n below) := Config.backtrackTo_embed h
      simpa [Config.perform, Config.embed, hf] using hb
    · cases h
  | crash fault | halt => cases h

/-- A failure of a block without a pending choice goes back to what is pending around it. -/
theorem Config.perform_embed_failed (h : c.perform mv = .failed) :
    (c.embed n below).perform mv = (c.embed n below).backtrackTo below := by
  have back : ∀ frames, c.backtrackTo frames = .failed →
      (c.embed n below).backtrackTo (frames.map (Pending.shift n) ++ below) =
        (c.embed n below).backtrackTo below := by
    intro frames hf
    rw [Config.backtrackTo, latestChoice?_shift, Config.backtrackTo]
    rw [Config.backtrackTo] at hf
    cases hl : latestChoice? frames with
    | none => rfl
    | some found => simp [hl] at hf
  cases mv with
  | fail => exact back _ h
  | failTwice =>
    rw [Config.perform] at h
    split at h
    · next p rest hf => simpa [Config.perform, Config.embed, hf] using back _ h
    · cases h
  | advance | jump | call | choose | crash | halt => cases h
  | ret =>
    rw [Config.perform] at h
    split at h <;> cases h
  | commit | renew | rewind =>
    rw [Config.perform, Config.popChoice] at h
    split at h <;> cases h

theorem Config.backtrackTo_ne_crashed {fault : Fault} (frames : List Pending) :
    c.backtrackTo frames ≠ .crashed fault := by
  intro h
  unfold Config.backtrackTo at h
  split at h <;> cases h

theorem Config.perform_eq_crashed {fault : Fault} (h : c.perform mv = .crashed fault) :
    mv = .crash fault := by
  cases mv with
  | crash fault' =>
    cases h
    rfl
  | advance | jump | call | choose | halt => cases h
  | fail => exact absurd h (Config.backtrackTo_ne_crashed _)
  | failTwice =>
    rw [Config.perform] at h
    split at h
    · exact absurd h (Config.backtrackTo_ne_crashed _)
    · cases h
  | ret =>
    rw [Config.perform] at h
    split at h <;> cases h
  | commit | renew | rewind =>
    rw [Config.perform, Config.popChoice] at h
    split at h <;> cases h

theorem Config.perform_embed_crashed {fault : Fault} (h : c.perform mv = .crashed fault) :
    (c.embed n below).perform mv = .crashed fault := by
  rw [Config.perform_eq_crashed h]
  rfl

theorem latestChoice?_mem {frames rest : List Pending} {point : ChoicePoint}
    (h : latestChoice? frames = some (point, rest)) :
    (∃ owner, ⟨.choice point, owner⟩ ∈ frames) ∧ ∀ p ∈ rest, p ∈ frames := by
  induction frames with
  | nil => cases h
  | cons p frames ih =>
    obtain ⟨_ | point', owner⟩ := p
    · obtain ⟨⟨owner', hmem⟩, hrest⟩ := ih h
      exact ⟨⟨owner', by simp [hmem]⟩, fun p hp => by simp [hrest p hp]⟩
    · cases h
      exact ⟨⟨owner, by simp⟩, fun p hp => by simp [hp]⟩

theorem latestChoice?_suffix {frames rest : List Pending} {point : ChoicePoint}
    (h : latestChoice? frames = some (point, rest)) : rest <:+ frames := by
  induction frames with
  | nil => cases h
  | cons p frames ih =>
    obtain ⟨_ | point', owner⟩ := p
    · exact (ih h).trans (List.suffix_cons _ _)
    · cases h
      exact List.suffix_cons _ _

theorem Config.backtrackTo_leads {P : Nat → Prop} {frames : List Pending}
    (hframes : FramesLead P frames) (h : c.backtrackTo frames = .next c') :
    P c'.address ∧ FramesLead P c'.frames := by
  unfold Config.backtrackTo at h
  split at h
  · next point rest hl =>
    cases h
    obtain ⟨⟨owner, hmem⟩, hrest⟩ := latestChoice?_mem hl
    exact ⟨hframes _ hmem, fun p hp => hframes p (hrest p hp)⟩
  · cases h

theorem Config.perform_leads {P : Nat → Prop} (hnext : P (c.address + 1))
    (hoff : ∀ off, mv.offset? = some off → P (c.target off)) (hframes : FramesLead P c.frames)
    (h : c.perform mv = .next c') : P c'.address ∧ FramesLead P c'.frames := by
  have cons : ∀ {p frames}, c.frames = p :: frames → P p.frame.address ∧ FramesLead P frames := by
    intro p frames hf
    rw [FramesLead, hf, List.forall_mem_cons] at hframes
    exact hframes
  cases mv with
  | advance pos captures =>
    cases h
    exact ⟨hnext, hframes⟩
  | jump off =>
    cases h
    exact ⟨hoff off rfl, hframes⟩
  | call off =>
    cases h
    exact ⟨hoff off rfl, List.forall_mem_cons.2 ⟨hnext, hframes⟩⟩
  | choose off back =>
    cases h
    exact ⟨hnext, List.forall_mem_cons.2 ⟨hoff off rfl, hframes⟩⟩
  | ret =>
    rw [Config.perform] at h
    split at h
    · next address owner rest hf =>
      cases h
      exact cons hf
    · cases h
  | commit off | rewind off =>
    obtain ⟨point, owner, rest, hf, rfl⟩ := Config.popChoice_eq_next h
    exact ⟨hoff off rfl, (cons hf).2⟩
  | renew off =>
    obtain ⟨point, owner, rest, hf, rfl⟩ := Config.popChoice_eq_next h
    exact ⟨hoff off rfl, List.forall_mem_cons.2 ⟨(cons hf).1, (cons hf).2⟩⟩
  | fail => exact Config.backtrackTo_leads hframes h
  | failTwice =>
    rw [Config.perform] at h
    split at h
    · next p rest hf => exact Config.backtrackTo_leads (cons hf).2 h
    · cases h
  | crash fault | halt => cases h

end Moves

/-! ## Code that carries a block -/

/-- From its instruction number `first` on, the block `part` has its instructions in `code` at
address `n`. Calls of rules may be linked there. No jump of the block leads back before `first`. -/
structure Carries (code : Block) (n first : Nat) (part : Block) : Prop where
  getElem? : ∀ (k : Nat) (instr : Instr), first ≤ k → part[k]? = some instr →
    (∀ rule, instr ≠ .openCall rule) → code[n + k]? = some instr
  choice : ∀ (k : Nat) (off : Int) (back : Nat), first ≤ k → k < part.length →
    code[n + k]? = some (.choice off back) → part[k]? = some (.choice off back)
  first_le : ∀ (k : Nat) (off : Int) (back : Nat), part[k]? = some (.choice off back) → first ≤ k
  lands : ∀ (k : Nat) (instr : Instr) (off : Int), part[k]? = some instr →
    instr.offset? = some off → (first : Int) ≤ k + off

theorem Block.StandsAt.carries {code part : Block} {n : Nat} (h : Block.StandsAt code n part)
    (hc : Block.Contained part) : Carries code n 0 part where
  getElem? _ _ _ hk _ := h.getElem?_eq_some hk
  choice _ _ _ _ hk hcode := by rwa [h.getElem? hk] at hcode
  first_le := by simp
  lands k instr off hk hoff := by simpa using (hc k instr off hk hoff).1

section

variable {m : Setting} {answers answers' : Answers} {code part : Block} {n first : Nat}

theorem Carries.ownChoice {address owner : Nat} (h : Carries code n first part)
    (haddr : address < part.length) (hown : OwnChoice part address owner) :
    OwnChoice code (n + address) (n + owner) := by
  obtain ⟨hlt, ⟨off, back, hcode, hbehind⟩, hinner⟩ := hown
  have hfirst := h.first_le owner off back hcode
  refine ⟨by omega, ⟨off, back, h.getElem? owner _ hfirst hcode (by simp), by push_cast; omega⟩, ?_⟩
  intro k hk hk' off' back' hcode'
  have hpart := h.choice (k - n) off' back' (by omega) (by omega)
    (by rwa [Nat.add_sub_cancel' (by omega)])
  have := hinner (k - n) (by omega) (by omega) off' back' hpart
  omega

theorem Carries.ready {o o' : Origin} {c : Config} {instr : Instr} {below : List Pending}
    (h : Carries code n first part) (ho : o'.pos ≤ o.pos) (haddr : c.address < part.length)
    (hne : ∀ rule, instr ≠ .openCall rule) (hr : instr.Ready m answers part o c) :
    instr.Ready m answers' code o' (c.embed n below) := by
  cases instr with
  | choice _ back | openCapture _ back _ => exact Nat.le_trans (Nat.add_le_add_right ho back) hr
  | fullCapture _ length _ => exact Nat.le_trans (Nat.add_le_add_right ho length) hr
  | ret =>
    obtain ⟨address, owner, rest, hf⟩ := hr
    exact ⟨n + address, n + owner, rest.map (Pending.shift n) ++ below, by
      simp [Config.embed, hf, Pending.shift, Frame.shift]⟩
  | commit | partialCommit | backCommit | failTwice =>
    obtain ⟨point, owner, rest, hf, hown⟩ := hr
    exact ⟨{ point with address := n + point.address }, n + owner,
      rest.map (Pending.shift n) ++ below, by simp [Config.embed, hf, Pending.shift, Frame.shift],
      h.ownChoice haddr hown⟩
  | matcher index => exact hr
  | openCall rule => exact absurd rfl (hne rule)
  | _ => trivial

theorem Sound.embed {o o' : Origin} {c : Config} {below : List Pending} (hs : Sound m o c)
    (ho : o'.pos ≤ o.pos) (hx : Extends o'.captures o.captures)
    (hbelow : LevelsBelow below o.captures.size) (hroom : o.room + below.length ≤ o'.room) :
    Sound m o' (c.embed n below) where
  pos_ge := Nat.le_trans ho hs.pos_ge
  pos_le := hs.pos_le
  keeps := hx.trans hs.keeps
  levels := by
    refine levelsBelow_append.2 ⟨?_, hbelow.mono hs.keeps.size_le⟩
    intro point owner hmem
    obtain ⟨⟨_ | point', owner'⟩, hp, he⟩ := List.mem_map.1 hmem
    · simp [Pending.shift, Frame.shift] at he
    · simp only [Pending.shift, Frame.shift, Pending.mk.injEq, Frame.choice.injEq] at he
      obtain ⟨rfl, rfl⟩ := he
      exact hs.levels point' owner' hp
  room := by
    have := hs.room
    simp only [Config.embed, List.length_append, List.length_map]
    omega

end

/-! ## Going on after an answer -/

namespace Aim

variable (aim : Aim)

/-- A failure with the given frames pending comes to the aim. -/
def Backtracks (frames : List Pending) (captures : Array Entry) : Prop :=
  match latestChoice? frames with
  | some (point, rest) =>
    aim.holds ⟨point.address, point.pos, rest, captures.shrink point.captures⟩
  | none => aim.failed

/-- After an answer the code comes to the aim: it goes on at an address when there was a match, and
back to the latest choice after a failure. -/
def Continues (address : Nat) (frames : List Pending) (captures : Array Entry) : Answer → Prop
  | .matched pos captures' => aim.holds ⟨address, pos, frames, captures'⟩
  | .failed => aim.Backtracks frames captures
  | .crashed fault => aim.crashed fault

/-- A configuration at a call comes to the aim if it does after the answer to the call, and if there
is room for the frames of the rule. -/
def CallsThrough (m : Setting) (o : Origin) (answers : Answers) (rule address : Nat) : Prop :=
  ∀ c r k, c.address = address → Sound m o c → answers rule c.pos c.captures = some (r, k) →
    c.frames.length + k + 1 ≤ o.room →
    aim.Continues (address + 1) c.frames c.captures r → aim.holds c

/-- What is left to show after a step of a block that stands at `n` in larger code, above the given
frames. -/
def AfterEmbed (n : Nat) (below : List Pending) (captures : Array Entry) : Progress → Prop
  | .next c => aim.holds (c.embed n below)
  | .failed => aim.Backtracks below captures
  | .crashed fault => aim.crashed fault
  | .stuck => False

end Aim

section

variable {aim : Aim} {captures captures' : Array Entry} {frames below : List Pending} {c : Config}
  {mv : Move} {n : Nat}

theorem Aim.after_backtrackTo :
    aim.After (c.backtrackTo frames) ↔ aim.Backtracks frames c.captures := by
  rw [Config.backtrackTo, Aim.Backtracks]
  cases latestChoice? frames <;> exact Iff.rfl

theorem Aim.Backtracks.congr (h : aim.Backtracks frames captures) (hx : Extends captures captures')
    (hl : LevelsBelow frames captures.size) : aim.Backtracks frames captures' := by
  rw [Aim.Backtracks] at h ⊢
  cases hf : latestChoice? frames with
  | none => simpa [hf] using h
  | some found =>
    obtain ⟨point, rest⟩ := found
    obtain ⟨⟨owner, hmem⟩, -⟩ := latestChoice?_mem hf
    simp only [hf] at h ⊢
    rwa [hx.shrink (hl point owner hmem)]

theorem Aim.AfterEmbed.after (h : aim.AfterEmbed n below c.captures (c.perform mv))
    (hoff : ∀ off, mv.offset? = some off → 0 ≤ c.address + off) :
    aim.After ((c.embed n below).perform mv) := by
  cases hstep : c.perform mv with
  | next c' =>
    rw [hstep] at h
    rw [Config.perform_embed hoff hstep]
    exact h
  | failed =>
    rw [hstep] at h
    rw [Config.perform_embed_failed hstep]
    exact Aim.after_backtrackTo.2 h
  | crashed fault =>
    rw [hstep] at h
    rw [Config.perform_embed_crashed hstep]
    exact h
  | stuck =>
    rw [hstep] at h
    exact h.elim

end

section

variable {m : Setting} {answers answers' : Answers} {code part : Block} {n first : Nat}
  {o o' : Origin} {below : List Pending} {c : Config} {r : Answer} {aim : Aim}
  {good : Config → Prop} {instr : Instr}

/-- A call of the block comes to the aim as the block goes on after its answer. -/
theorem Aim.CallsThrough.carried {rule : Nat}
    (hcall : aim.CallsThrough m o' answers rule (n + c.address))
    (hs : Sound m o' (c.embed n below)) (hr : (Instr.openCall rule).Ready m answers part o c)
    (hroom : o.room + below.length ≤ o'.room)
    (h : aim.AfterEmbed n below c.captures
      (c.perform (m.move answers c.pos c.captures (.openCall rule)))) :
    aim.holds (c.embed n below) := by
  rw [Setting.move] at h
  cases hanswer : answers rule c.pos c.captures with
  | none =>
    rw [hanswer] at h
    exact h.elim
  | some found =>
    obtain ⟨r, k⟩ := found
    rw [hanswer] at h
    have hframes : (c.embed n below).frames.length + k + 1 ≤ o'.room := by
      have := hr r k hanswer
      simp only [Config.embed, List.length_append, List.length_map]
      omega
    refine hcall _ r k rfl hs hanswer hframes ?_
    cases r with
    | matched pos captures => exact h
    | failed =>
      have hfail : aim.AfterEmbed n below c.captures (c.perform .fail) := h
      exact Aim.after_backtrackTo.1 (hfail.after nofun)
    | crashed fault => exact h

theorem Aim.TakenBack.carried_step (hback : aim.TakenBack m answers' code code o' good)
    (hc : Carries code n first part) (ho : o'.pos ≤ o.pos)
    (hroom : o.room + below.length ≤ o'.room)
    (hgood : (∀ rule, instr ≠ .openCall rule) → good (c.embed n below))
    (hcall : ∀ rule, instr = .openCall rule →
      aim.CallsThrough m o' answers rule (n + c.address))
    (hinstr : part[c.address]? = some instr) (hr : instr.Ready m answers part o c)
    (haddr : first ≤ c.address) (hs : Sound m o' (c.embed n below))
    (h : aim.AfterEmbed n below c.captures
      (c.perform (m.move answers c.pos c.captures instr))) :
    aim.holds (c.embed n below) := by
  by_cases hcase : ∃ rule, instr = .openCall rule
  · obtain ⟨rule, rfl⟩ := hcase
    exact (hcall rule rfl).carried hs hr hroom h
  · have hne : ∀ rule, instr ≠ .openCall rule := fun rule he => hcase ⟨rule, he⟩
    have hlt := (List.getElem?_eq_some_iff.1 hinstr).1
    refine hback.step (hgood hne) (hc.getElem? _ _ haddr hinstr hne) hs (hc.ready ho hlt hne hr) ?_
    rw [show (c.embed n below).pos = c.pos from rfl,
      show (c.embed n below).captures = c.captures from rfl,
      Setting.move_congr answers' answers hne]
    refine h.after fun off hoff => ?_
    have := hc.lands _ _ off hinstr (Setting.offset?_move hoff)
    omega

/-- **A block comes to an aim inside larger code if the code does after its answer.** -/
theorem Aim.TakenBack.carried (hback : aim.TakenBack m answers' code code o' good)
    (hc : Carries code n first part) (ho : o'.pos ≤ o.pos)
    (hx : Extends o'.captures o.captures) (hbelow : LevelsBelow below o.captures.size)
    (hroom : o.room + below.length ≤ o'.room)
    (hgood : ∀ c instr, first ≤ c.address → part[c.address]? = some instr →
      (∀ rule, instr ≠ .openCall rule) → Sound m o c → good (c.embed n below))
    (hcall : ∀ k rule, first ≤ k → part[k]? = some (.openCall rule) →
      aim.CallsThrough m o' answers rule (n + k))
    (h : Run m answers part part o c r) (haddr : first ≤ c.address)
    (hframes : FramesLead (first ≤ ·) c.frames)
    (hend : aim.Continues (n + part.length) below o.captures r) :
    aim.holds (c.embed n below) := by
  have step : ∀ {c : Config} {instr : Instr}, part[c.address]? = some instr → Sound m o c →
      instr.Ready m answers part o c → first ≤ c.address →
      aim.AfterEmbed n below c.captures (c.perform (m.move answers c.pos c.captures instr)) →
      aim.holds (c.embed n below) := fun hinstr hs hr haddr =>
    hback.carried_step hc ho hroom (fun hne => hgood _ _ haddr hinstr hne hs)
      (fun rule he => hcall _ rule haddr (he ▸ hinstr)) hinstr hr haddr
      (hs.embed ho hx hbelow hroom)
  -- The aim holds at the end of the run, and each step of the run takes it back.
  induction h with
  | @exit c hlen hnil hs =>
    have hembed : c.embed n below = ⟨n + part.length, c.pos, below, c.captures⟩ := by
      simp [Config.embed, hlen, hnil]
    rw [hembed]
    exact hend
  | @next c c' instr r hinstr hs hr hstep hrun ih =>
    have htarget : ∀ off, (m.move answers c.pos c.captures instr).offset? = some off →
        first ≤ c.target off := by
      intro off hmove
      have := hc.lands c.address instr off hinstr (Setting.offset?_move hmove)
      rw [Config.target]
      omega
    obtain ⟨haddr', hframes'⟩ := Config.perform_leads (P := (first ≤ ·))
      (Nat.le_succ_of_le haddr) htarget hframes hstep
    refine step hinstr hs hr haddr ?_
    rw [hstep]
    exact ih haddr' hframes' hend
  | failed hinstr hs hr hstep =>
    refine step hinstr hs hr haddr ?_
    rw [hstep]
    exact hend.congr hs.keeps hbelow
  | crashed hinstr hs hr hstep =>
    refine step hinstr hs hr haddr ?_
    rw [hstep]
    exact hend

end

/-! ## Ending with an answer -/

section

variable (m : Setting) (answers : Answers) (code : Block) (o : Origin)

/-- A failure with the given frames pending ends with `R`. -/
def Backtracks (frames : List Pending) (captures : Array Entry) (R : Answer) : Prop :=
  (Aim.ends m answers code code o R).Backtracks frames captures

/-- After an answer the code ends with `R`: it goes on at an address when there was a match, and
back to the latest choice after a failure. -/
def Continues (address : Nat) (frames : List Pending) (captures : Array Entry) (R r : Answer) :
    Prop :=
  (Aim.ends m answers code code o R).Continues address frames captures r

/-- A configuration at a call ends with `R` if it does after the answer to the call, and if there is
room for the frames of the rule. -/
def CallsThrough (answers' : Answers) (rule address : Nat) (R : Answer) : Prop :=
  (Aim.ends m answers code code o R).CallsThrough m o answers' rule address

end

section

variable {m : Setting} {answers answers' : Answers} {code part : Block} {n first : Nat}
  {o o' : Origin} {below : List Pending} {c c' : Config} {r R : Answer}

theorem Run.of_backtracks {instr : Instr} {frames : List Pending}
    (hinstr : code[c.address]? = some instr) (hs : Sound m o c)
    (hr : instr.Ready m answers code o c)
    (hstep : c.perform (m.move answers c.pos c.captures instr) = c.backtrackTo frames)
    (h : Backtracks m answers code o frames c.captures R) : Run m answers code code o c R := by
  rw [Backtracks, Aim.Backtracks] at h
  rw [Config.backtrackTo] at hstep
  cases hf : latestChoice? frames with
  | none =>
    simp only [hf] at h hstep
    subst h
    exact .failed hinstr hs hr hstep
  | some found =>
    simp only [hf] at h hstep
    exact .next hinstr hs hr hstep h

theorem CallsThrough.openCall {rule address : Nat}
    (h : code[address]? = some (.openCall rule)) :
    CallsThrough m answers code o answers rule address R := by
  intro c r k haddr hs hanswer hroom hcont
  subst haddr
  have hmove : m.move answers c.pos c.captures (.openCall rule) = Move.ofAnswer (some (r, k)) := by
    rw [Setting.move, hanswer]
  have hready : (Instr.openCall rule).Ready m answers code o c := by
    intro r' k' hanswer'
    rw [hanswer] at hanswer'
    cases hanswer'
    exact hroom
  cases r with
  | matched pos captures => exact .next h hs hready (by rw [hmove]; rfl) hcont
  | failed => exact Run.of_backtracks h hs hready (by rw [hmove]; rfl) hcont
  | crashed fault =>
    cases hcont
    exact .crashed h hs hready (by rw [hmove]; rfl)

/-- **A block does inside larger code what it does on its own.** -/
theorem Run.carried (hc : Carries code n first part) (ho : o'.pos ≤ o.pos)
    (hx : Extends o'.captures o.captures) (hbelow : LevelsBelow below o.captures.size)
    (hroom : o.room + below.length ≤ o'.room)
    (hcall : ∀ k rule, first ≤ k → part[k]? = some (.openCall rule) →
      CallsThrough m answers' code o' answers rule (n + k) R)
    (h : Run m answers part part o c r) (haddr : first ≤ c.address)
    (hframes : FramesLead (first ≤ ·) c.frames)
    (hend : Continues m answers' code o' (n + part.length) below o.captures R r) :
    Run m answers' code code o' (c.embed n below) R := by
  have hback : (Aim.ends m answers' code code o' R).TakenBack m answers' code code o' fun _ => True :=
    Aim.takenBack_ends
  exact hback.carried hc ho hx hbelow hroom (fun _ _ _ _ _ _ => trivial) hcall h haddr hframes hend

theorem Block.Runs.within {room pos : Nat} {captures : Array Entry}
    (h : Block.Runs m answers room part pos captures r) (hat : Block.StandsAt code n part)
    (hcont : Block.Contained part) (ho : o.pos ≤ pos) (hx : Extends o.captures captures)
    (hbelow : LevelsBelow below captures.size) (hroom : room + below.length ≤ o.room)
    (hend : Continues m answers code o (n + part.length) below captures R r) :
    Run m answers code code o ⟨n, pos, below, captures⟩ R := by
  refine Run.carried (o := ⟨pos, captures, room⟩) (hat.carries hcont) ho hx hbelow hroom ?_ h
    (Nat.zero_le _) (by simp [FramesLead]) hend
  exact fun k rule _ hk => .openCall (hat.getElem?_eq_some hk)

theorem Rises.within {height : Nat} (h : Rises m answers part c height)
    (hat : Block.StandsAt code n part) (hcont : Block.Contained part) (below : List Pending) :
    Rises m answers code (c.embed n below) (height + below.length) := by
  induction h with
  | here c =>
    have hlength : (c.embed n below).frames.length = c.frames.length + below.length := by
      simp [Config.embed]
    rw [← hlength]
    exact .here _
  | @next c c' instr height hinstr hstep _ ih =>
    refine .next (hat.getElem?_eq_some hinstr) (Config.perform_embed (fun off hoff => ?_) hstep) ih
    have hland := hcont c.address instr off hinstr (Setting.offset?_move hoff)
    omega

end

end PegMachine
