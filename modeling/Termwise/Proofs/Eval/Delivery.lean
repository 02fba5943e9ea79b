import Termwise.Proofs.Eval.Interleaving

/-!
# Termwise.Proofs.Eval.Delivery

What an emission has done, by its actions.  An emission that has returned has asked the
gathers of its contexts one after the other, and has

* appended its value to the first one that accepted the tag and was still open
  (`Delivered`), or
* found none, and reported that (`Reported`).

Each action takes an emission from a stage to the next (`Stage.Follows.act`), and nothing
but the last one appends or sends anything (`Status.Accounts.accounted`).
-/

namespace Termwise.Gathering

/-! ## what an emission has done -/

/-- A context in which no gather took the value: the gathers that were read, and whether they
accepted the tag and were closed by then. -/
structure Visit where
  owner : ContextId
  frames : List (GatherFrame × Bool)

/-- The actions at a gather that did not take the value. -/
def passing (owner : ContextId) : GatherFrame × Bool → List Act
  | (frame, false) => [.refused owner frame]
  | (frame, true) => [.accepted owner frame, .missed owner frame]

namespace Visit

/-- The actions at a context in which no gather took the value. -/
def acts (v : Visit) : List Act :=
  .reads v.owner (v.frames.map Prod.fst) :: v.frames.flatMap (passing v.owner)

/-- Whether there were gathers. -/
def seen (v : Visit) : Bool := !v.frames.isEmpty

end Visit

/-- The actions that lead to a gather: the contexts before its own have been searched in vain, and
so have the gathers before it in its own, where others come after it. -/
def LeadTo (owners : List ContextId) (owner : ContextId) (frame : GatherFrame)
    (frames : List GatherFrame) (rest : List ContextId) (acts : List Act) : Prop :=
  ∃ (visits : List Visit) (asked : List (GatherFrame × Bool)),
    owners = visits.map Visit.owner ++ owner :: rest ∧
    acts = visits.flatMap Visit.acts ++
      .reads owner (asked.map Prod.fst ++ frame :: frames) :: asked.flatMap (passing owner)

/-- The value was appended to a gather, which accepted the tag, and no gather before it took it. -/
def Delivered (owners : List ContextId) (owner : ContextId) (frame : GatherFrame) (value : Term)
    (acts : List Act) : Prop :=
  ∃ frames rest before, LeadTo owners owner frame frames rest before ∧
    acts = before ++ [.accepted owner frame, .appended owner frame value]

/-- All contexts were searched in vain, and that was reported. -/
def Reported (owners : List ContextId) (value tag : Term) (visits : List Visit) (acts : List Act) :
    Prop :=
  owners = visits.map Visit.owner ∧
    acts = visits.flatMap Visit.acts ++ [report value tag (visits.any Visit.seen)]

/-- An action that appends to a gather or sends a message. -/
def Act.hasEffect : Act → Bool
  | .appended .. | .reported .. => true
  | _ => false

/-- The actions that append to a gather or send a message. -/
def effects (acts : List Act) : List Act := acts.filter Act.hasEffect

/-- A gather accepted or refused the tag as a match may answer. -/
def Act.Answered (answers : Term → Except EvalError Bool → Prop) : Act → Prop
  | .accepted _ frame => answers frame.pattern (.ok true)
  | .refused _ frame => answers frame.pattern (.ok false)
  | _ => True

/-- What an emission has done that searches contexts:

* if it has returned, it has appended its value once, to the first gather that accepted the tag
  and was still open, and sent nothing, or it has appended nothing and reported once that no
  gather takes the value;
* if it has failed, a match has failed, and it has appended nothing and sent nothing;
* nor has it while it is on its way. -/
def Emission.Accounted (e : Emission) (answers : Term → Except EvalError Bool → Prop)
    (owners : List ContextId) (acts : List Act) : Prop :=
  match e.status with
  | .returned =>
    (∃ owner frame, Delivered owners owner frame e.value acts ∧
      effects acts = [.appended owner frame e.value]) ∨
    ∃ visits, Reported owners e.value e.tag visits acts ∧
      effects acts = [report e.value e.tag (visits.any Visit.seen)]
  | .failed error => effects acts = [] ∧ ∃ owner frame frames rest,
      LeadTo owners owner frame frames rest acts ∧ answers frame.pattern (.error error)
  | .running _ => effects acts = []

/-! ## stages -/

/-- What has been done at a stage. -/
def Stage.Follows (owners : List ContextId) (acts : List Act) : Stage → Prop
  | .search rest seen => ∃ visits : List Visit, owners = visits.map Visit.owner ++ rest ∧
      acts = visits.flatMap Visit.acts ∧ seen = visits.any Visit.seen
  | .asks owner frame frames rest => LeadTo owners owner frame frames rest acts
  | .offers owner frame frames rest => ∃ before, LeadTo owners owner frame frames rest before ∧
      acts = before ++ [.accepted owner frame]

/-- What an emission has done that stands so. -/
def Status.Accounts (answers : Term → Except EvalError Bool → Prop) (owners : List ContextId)
    (value tag : Term) (acts : List Act) : Status → Prop
  | .running stage => stage.Follows owners acts
  | .returned => (∃ owner frame, Delivered owners owner frame value acts) ∨
      ∃ visits, Reported owners value tag visits acts
  | .failed error => ∃ owner frame frames rest,
      LeadTo owners owner frame frames rest acts ∧ answers frame.pattern (.error error)

/-- The action that was taken. -/
def taken : Except EvalError (Act × Option Stage) → List Act
  | .ok (act, _) => [act]
  | .error _ => []

variable {owners rest : List ContextId} {owner : ContextId} {frame : GatherFrame}
  {frames : List GatherFrame} {acts : List Act} {value tag : Term}

/-- Some gathers of a context have been asked. -/
theorem follows_ask (visits : List Visit) (asked : List (GatherFrame × Bool)) {seen : Bool}
    (howners : owners = visits.map Visit.owner ++ owner :: rest)
    (hseen : frames = [] → seen = (visits.any Visit.seen || !asked.isEmpty)) :
    (Stage.ask owner rest seen frames).Follows owners (visits.flatMap Visit.acts ++
      .reads owner (asked.map Prod.fst ++ frames) :: asked.flatMap (passing owner)) := by
  cases frames with
  | nil =>
      refine ⟨visits ++ [⟨owner, asked⟩], by simp [howners], ?_, ?_⟩
      · simp [Visit.acts]
      · simp [hseen rfl, Visit.seen]
  | cons frame frames => exact ⟨visits, asked, howners, rfl⟩

/-- A gather that did not take the value has been asked. -/
theorem LeadTo.ask (h : LeadTo owners owner frame frames rest acts) (late : Bool) :
    (Stage.ask owner rest true frames).Follows owners (acts ++ passing owner (frame, late)) := by
  obtain ⟨visits, asked, howners, rfl⟩ := h
  have hask : (Stage.ask owner rest true frames).Follows owners _ :=
    follows_ask visits (asked ++ [(frame, late)]) howners fun _ => by simp
  simpa using hask

/-- An action takes an emission on. -/
theorem Stage.Follows.act {stage : Stage} (h : stage.Follows owners acts)
    {asked : Term → Except EvalError Bool → Prop} {answer : Except EvalError Bool}
    (hanswer : stage.Answered asked answer) (value tag : Term) (k : Kernel) :
    (Status.after (stage.act answer value tag k).1).Accounts asked owners value tag
      (acts ++ taken (stage.act answer value tag k).1) := by
  unfold Stage.act
  match stage with
  | .search [] seen =>
      obtain ⟨visits, howners, rfl, rfl⟩ := h
      rw [Stage.run_next_nil]
      exact .inr ⟨visits, by simpa using howners, rfl⟩
  | .search (owner :: rest) seen =>
      obtain ⟨visits, howners, rfl, rfl⟩ := h
      exact follows_ask visits [] howners fun _ => by simp
  | .asks owner frame frames rest =>
      rw [Stage.run_next_asks owner frame frames rest rfl]
      match answer with
      | .ok true => exact ⟨acts, h, rfl⟩
      | .ok false => exact LeadTo.ask h false
      | .error e =>
          refine ⟨owner, frame, frames, rest, ?_, hanswer⟩
          change LeadTo owners owner frame frames rest (acts ++ [])
          rwa [List.append_nil]
  | .offers owner frame frames rest =>
      obtain ⟨before, hbefore, rfl⟩ := h
      rw [Stage.run_next_offers]
      split
      · exact .inl ⟨owner, frame, frames, rest, before, hbefore, by simp [taken]⟩
      · change (Stage.ask owner rest true frames).Follows owners
          (before ++ [.accepted owner frame] ++ [.missed owner frame])
        rw [List.append_assoc]
        exact hbefore.ask true

/-- An action goes by an answer that may be given. -/
theorem answered_taken {stage : Stage} {asked : Term → Except EvalError Bool → Prop}
    {answer : Except EvalError Bool} (hanswer : stage.Answered asked answer) (value tag : Term)
    (k : Kernel) : ∀ act ∈ taken (stage.act answer value tag k).1, act.Answered asked := by
  unfold Stage.act
  match stage with
  | .search [] seen =>
      rw [Stage.run_next_nil]
      cases seen <;> simp [taken, report, Act.Answered]
  | .search (owner :: rest) seen => simp [Stage.run_next_cons, taken, Act.Answered]
  | .asks owner frame frames rest =>
      rw [Stage.run_next_asks owner frame frames rest rfl]
      match answer with
      | .ok true | .ok false => exact List.forall_mem_singleton.mpr hanswer
      | .error e => exact fun _ h => nomatch h
  | .offers owner frame frames rest =>
      rw [Stage.run_next_offers]
      split <;> simp [taken, Act.Answered]

/-! ## effects -/

theorem effects_append (acts acts' : List Act) :
    effects (acts ++ acts') = effects acts ++ effects acts' := List.filter_append ..

theorem effects_flatMap {α : Type} {f : α → List Act} (hf : ∀ x, effects (f x) = [])
    (xs : List α) : effects (xs.flatMap f) = [] := by
  induction xs with
  | nil => rfl
  | cons x xs ih => rw [List.flatMap_cons, effects_append, hf, ih, List.append_nil]

theorem effects_passing (owner : ContextId) (g : GatherFrame × Bool) :
    effects (passing owner g) = [] := by
  rcases g with ⟨frame, late⟩
  cases late <;> rfl

theorem effects_visits (visits : List Visit) : effects (visits.flatMap Visit.acts) = [] :=
  effects_flatMap (f := Visit.acts)
    (fun v => effects_flatMap (effects_passing v.owner) v.frames) visits

theorem LeadTo.effects_eq_nil (h : LeadTo owners owner frame frames rest acts) :
    effects acts = [] := by
  obtain ⟨visits, asked, -, rfl⟩ := h
  rw [effects_append, effects_visits]
  exact effects_flatMap (effects_passing owner) asked

theorem Stage.Follows.effects_eq_nil {stage : Stage} (h : stage.Follows owners acts) :
    effects acts = [] := by
  match stage with
  | .search rest seen =>
      obtain ⟨visits, -, rfl, -⟩ := h
      exact effects_visits visits
  | .asks owner frame frames rest => exact LeadTo.effects_eq_nil h
  | .offers owner frame frames rest =>
      obtain ⟨before, hbefore, rfl⟩ := h
      rw [effects_append, hbefore.effects_eq_nil]
      rfl

/-- Where an emission stands, what it has done is as it should be. -/
theorem Status.Accounts.accounted {e : Emission} {asked : Term → Except EvalError Bool → Prop}
    (h : e.status.Accounts asked owners e.value e.tag acts) : e.Accounted asked owners acts := by
  unfold Emission.Accounted
  match hstatus : e.status with
  | .running stage =>
      rw [hstatus] at h
      exact Stage.Follows.effects_eq_nil h
  | .failed _ =>
      rw [hstatus] at h
      obtain ⟨_, _, _, _, hlead, -⟩ := id h
      exact ⟨hlead.effects_eq_nil, h⟩
  | .returned =>
      rw [hstatus] at h
      rcases h with ⟨owner, frame, hdelivered⟩ | ⟨visits, hreported⟩
      · refine .inl ⟨owner, frame, hdelivered, ?_⟩
        obtain ⟨_, _, before, hbefore, rfl⟩ := hdelivered
        rw [effects_append, hbefore.effects_eq_nil]
        rfl
      · refine .inr ⟨visits, hreported, ?_⟩
        rw [hreported.2, effects_append, effects_visits]
        cases visits.any Visit.seen <;> rfl

end Termwise.Gathering
