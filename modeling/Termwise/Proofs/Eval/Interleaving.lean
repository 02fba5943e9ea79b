import Termwise.Proofs.Eval.Callees
import Termwise.Proofs.Eval.Emission
import Termwise.Proofs.Eval.Preserved

/-!
# Termwise.Proofs.Eval.Interleaving

Everything that happens to the gathers of a kernel, in any order: gathers are opened and
closed, contexts are spawned, emissions start and take their actions, and what else there
is leaves gathers alone.  A match answers at any time, and what it has evaluated by then
are steps of their own (`Step.acts`); which answers it may give is a parameter.

Running the code of an emission is such a run (`exists_run_emit`), as soon as what
evaluation and rewriting do to the kernel is one.
-/

namespace Termwise.Gathering

/-! ## systems -/

/-- How an emission stands. -/
inductive Status
  /-- It is on its way. -/
  | running (stage : Stage)
  /-- It has returned. -/
  | returned
  /-- It has failed: a match did. -/
  | failed (error : EvalError)

/-- How an emission stands after an action. -/
def Status.after : Except EvalError (Act × Option Stage) → Status
  | .ok (_, some stage) => .running stage
  | .ok (_, none) => .returned
  | .error e => .failed e

/-- How an emission stands when its code has run. -/
def Status.ofResult : Except EvalError Unit → Status
  | .ok () => .returned
  | .error e => .failed e

/-- An emission. -/
structure Emission where
  /-- The context that emits. -/
  context : ContextId
  /-- What it emits. -/
  value : Term
  /-- The tag it emits it under. -/
  tag : Term
  /-- How the emission stands. -/
  status : Status

/-- A kernel and the emissions so far, each at the position of its number. -/
structure System where
  kernel : Kernel
  emissions : List Emission

/-- What happens in one step. -/
inductive Event
  /-- A gather was opened; its number and its pattern. -/
  | opened (owner : ContextId) (id : Nat) (pattern : Term)
  /-- The innermost gather of a context was closed; what it has collected. -/
  | closed (owner : ContextId) (values : List Term)
  /-- A context was spawned. -/
  | spawned (parent child : ContextId)
  /-- An emission has started. -/
  | started (context : ContextId) (value tag : Term)
  /-- An emission has taken an action. -/
  | acted (emission : Nat) (act : Act)
  /-- An emission has failed. -/
  | failed (emission : Nat) (error : EvalError)
  /-- Something else; the messages it has sent. -/
  | other (messages : List Message)

/-- What has happened when an emission took an action. -/
def Event.ofAction (i : Nat) : Except EvalError (Act × Option Stage) → Event
  | .ok (act, _) => .acted i act
  | .error e => .failed i e

/-- What a match in a context of a tag with a pattern may answer. -/
abbrev Answers := ContextId → Term → Term → Except EvalError Bool → Prop

/-- The answer may be given at a stage at which the tag is matched with a pattern. -/
def Stage.Answered (answers : Term → Except EvalError Bool → Prop)
    (answer : Except EvalError Bool) : Stage → Prop
  | .asks _ frame _ _ => answers frame.pattern answer
  | _ => True

/-- The next action of an emission, with the answer of a match if it is one. -/
def Stage.act (stage : Stage) (answer : Except EvalError Bool) (value tag : Term) (k : Kernel) :
    Except EvalError (Act × Option Stage) × Kernel :=
  (stage.next (fun _ => ExceptT.mk (pure answer)) value tag).run k

/-- Contexts stay, and so do the contexts that they were spawned from. -/
def KeepsLines (k k' : Kernel) : Prop :=
  k.contexts.size ≤ k'.contexts.size ∧ ∀ c, c.index < k.contexts.size → k'.line c = k.line c

/-- A change of a kernel that leaves gathers alone, and the messages it has sent. -/
structure Undisturbed (k k' : Kernel) (sent : List Message) : Prop where
  gathers : ∀ c, (k'.context c).gathers = (k.context c).gathers
  lines : KeepsLines k k'
  frames : k.frames ≤ k'.frames
  messages : k'.messages = sent.reverse ++ k.messages

/-- One step of a system. -/
inductive Step (answers : Answers) (s : System) : Event → System → Prop
  | opens (c : ContextId) (pattern : Term) (hc : c.index < s.kernel.contexts.size) :
      Step answers s (.opened c s.kernel.frames pattern)
        ⟨s.kernel.gatherBegin c pattern, s.emissions⟩
  | closes (c : ContextId) :
      Step answers s (.closed c (s.kernel.gatherEnd c).1) ⟨(s.kernel.gatherEnd c).2, s.emissions⟩
  | spawns (c : ContextId) (hc : c.index < s.kernel.contexts.size) :
      Step answers s (.spawned c (s.kernel.spawnChild c).1) ⟨(s.kernel.spawnChild c).2, s.emissions⟩
  | starts (c : ContextId) (value tag : Term) (hc : c.index < s.kernel.contexts.size) :
      Step answers s (.started c value tag) ⟨s.kernel,
        s.emissions ++ [⟨c, value, tag, .running (.search (s.kernel.line c) false)⟩]⟩
  | acts {i : Nat} {e : Emission} {stage : Stage} {answer : Except EvalError Bool}
      {result : Except EvalError (Act × Option Stage)} {k' : Kernel}
      (he : s.emissions[i]? = some e) (hstage : e.status = .running stage)
      (hanswer : stage.Answered (answers e.context e.tag) answer)
      (hact : stage.act answer e.value e.tag s.kernel = (result, k')) :
      Step answers s (.ofAction i result) ⟨k', s.emissions.set i { e with status := .after result }⟩
  | others {k' : Kernel} {sent : List Message} (h : Undisturbed s.kernel k' sent) :
      Step answers s (.other sent) ⟨k', s.emissions⟩

/-- Steps one after the other, and what happened in them. -/
inductive Run (answers : Answers) (s : System) : List Event → System → Prop
  | nil : Run answers s [] s
  | snoc {history : List Event} {event : Event} {t u : System} :
      Run answers s history t → Step answers t event u → Run answers s (history ++ [event]) u

variable {answers : Answers}

theorem Run.trans {s t u : System} {history history' : List Event} (h : Run answers s history t)
    (h' : Run answers t history' u) : Run answers s (history ++ history') u := by
  induction h' with
  | nil => rwa [List.append_nil]
  | snoc _ hstep ih => rw [← List.append_assoc]; exact ih.snoc hstep

theorem Step.run {s t : System} {event : Event} (h : Step answers s event t) :
    Run answers s [event] t :=
  Run.nil.snoc h

/-! ## contexts -/

variable {k k' k'' : Kernel}

theorem KeepsLines.refl (k : Kernel) : KeepsLines k k := ⟨Nat.le_refl _, fun _ _ => rfl⟩

theorem KeepsLines.trans (h : KeepsLines k k') (h' : KeepsLines k' k'') : KeepsLines k k'' :=
  ⟨Nat.le_trans h.1 h'.1, fun c hc =>
    (h'.2 c (Nat.lt_of_lt_of_le hc h.1)).trans (h.2 c hc)⟩

theorem keepsLines_updateContext (k : Kernel) (c : ContextId) {f : Context → Context}
    (hf : ∀ x, (f x).ancestors = x.ancestors) : KeepsLines k (k.updateContext c f) :=
  ⟨by simp [Kernel.updateContext], fun c' _ => by
    rw [Kernel.line, k.context_updateContext_of_eq c c' hf, Kernel.line]⟩

theorem keepsLines_gatherEnd (k : Kernel) (c : ContextId) : KeepsLines k (k.gatherEnd c).2 := by
  unfold Kernel.gatherEnd
  split
  · exact keepsLines_updateContext k c fun _ => rfl
  · exact .refl k

theorem undisturbed_spawnChild (k : Kernel) (c : ContextId) :
    Undisturbed k (k.spawnChild c).2 [] where
  gathers c' := by
    simp only [Kernel.spawnChild, Kernel.context, Array.getD_eq_getD_getElem?, Array.getElem?_push]
    split
    next h => simp [h, default]
    next => rfl
  lines := by
    refine ⟨by simp [Kernel.spawnChild], fun c' hc' => ?_⟩
    simp only [Kernel.line, Kernel.spawnChild, Kernel.context, Array.getD_eq_getD_getElem?,
      Array.getElem?_push, if_neg (Nat.ne_of_lt hc')]
  frames := Nat.le_refl _
  messages := rfl

/-- What an action of an emission comes to: the result and the kernel it leaves. -/
inductive Did (value : Term) (k : Kernel) : Except EvalError (Act × Option Stage) → Kernel → Prop
  | reads (owner : ContextId) (stage? : Option Stage) :
      Did value k (.ok (.reads owner (k.context owner).gathers, stage?)) k
  | refused (owner : ContextId) (frame : GatherFrame) (stage? : Option Stage) :
      Did value k (.ok (.refused owner frame, stage?)) k
  | accepted (owner : ContextId) (frame : GatherFrame) (stage? : Option Stage) :
      Did value k (.ok (.accepted owner frame, stage?)) k
  | missed (owner : ContextId) (frame : GatherFrame) (stage? : Option Stage)
      (h : ¬ k.isOpen owner frame.id = true) : Did value k (.ok (.missed owner frame, stage?)) k
  | appended (owner : ContextId) (frame : GatherFrame) (stage? : Option Stage)
      (h : k.isOpen owner frame.id = true) :
      Did value k (.ok (.appended owner frame value, stage?)) (k.collect owner frame.id value)
  | reported (about : String) (args : List Term) (stage? : Option Stage) :
      Did value k (.ok (.reported about args, stage?)) (k.addMessage .emit about args)
  | failed (e : EvalError) : Did value k (.error e) k

theorem did_of_act {stage : Stage} {answer : Except EvalError Bool} {value tag : Term}
    {result : Except EvalError (Act × Option Stage)}
    (h : stage.act answer value tag k = (result, k')) : Did value k result k' := by
  unfold Stage.act at h
  match stage with
  | .search [] seen =>
      rw [Stage.run_next_nil] at h
      cases h
      cases seen <;> exact .reported ..
  | .search (owner :: rest) seen =>
      cases h
      exact .reads ..
  | .asks owner frame frames rest =>
      rw [Stage.run_next_asks owner frame frames rest rfl] at h
      cases h
      match answer with
      | .ok true => exact .accepted ..
      | .ok false => exact .refused ..
      | .error e => exact .failed e
  | .offers owner frame frames rest =>
      rw [Stage.run_next_offers] at h
      split at h
      next hopen =>
        cases h
        exact .appended owner frame none hopen
      next hclosed =>
        cases h
        exact .missed owner frame _ hclosed

theorem Did.keepsLines {value : Term} {result : Except EvalError (Act × Option Stage)}
    (h : Did value k result k') : KeepsLines k k' := by
  cases h with
  | appended owner => exact keepsLines_updateContext k owner fun _ => rfl
  | _ => exact .refl k

theorem Step.keepsLines {s t : System} {event : Event} (h : Step answers s event t) :
    KeepsLines s.kernel t.kernel := by
  cases h with
  | opens c pattern hc => exact keepsLines_updateContext s.kernel c fun _ => rfl
  | closes c => exact keepsLines_gatherEnd s.kernel c
  | spawns c hc => exact (undisturbed_spawnChild s.kernel c).lines
  | starts => exact .refl _
  | acts _ _ _ hact => exact (did_of_act hact).keepsLines
  | others h => exact h.lines

theorem Run.keepsLines {s t : System} {history : List Event} (h : Run answers s history t) :
    KeepsLines s.kernel t.kernel := by
  induction h with
  | nil => exact .refl _
  | snoc _ hstep ih => exact ih.trans hstep.keepsLines

/-! ## kernels on their way -/

/-- A kernel changes into another one by steps of a system, which leave the emissions so far as they
are. -/
def Moves (answers : Answers) (k k' : Kernel) : Prop :=
  ∀ es, ∃ history later, Run answers ⟨k, es⟩ history ⟨k', es ++ later⟩

/-- What a context evaluates changes kernels by steps. -/
def Steps {α : Type} (answers : Answers) (c : ContextId) (x : EvalM α) : Prop :=
  ∀ k, c.index < k.contexts.size → Moves answers k (x.run k).2

theorem Moves.refl (k : Kernel) : Moves answers k k := fun es => ⟨[], [], by
  rw [List.append_nil]
  exact .nil⟩

theorem Moves.trans (h : Moves answers k k') (h' : Moves answers k' k'') :
    Moves answers k k'' := fun es => by
  obtain ⟨history, later, hrun⟩ := h es
  obtain ⟨history', later', hrun'⟩ := h' (es ++ later)
  exact ⟨_, later ++ later', by
    rw [← List.append_assoc]
    exact hrun.trans hrun'⟩

theorem Moves.size_le (h : Moves answers k k') : k.contexts.size ≤ k'.contexts.size := by
  obtain ⟨_, _, hrun⟩ := h []
  exact hrun.keepsLines.1

theorem moves_of_undisturbed {sent : List Message} (h : Undisturbed k k' sent) :
    Moves answers k k' :=
  fun es => ⟨_, [], by
    rw [List.append_nil]
    exact (Step.others h).run⟩

/-- A change that leaves contexts alone, and sends nothing. -/
theorem moves_of_eq (hcontexts : k'.contexts = k.contexts) (hframes : k'.frames = k.frames)
    (hmessages : k'.messages = k.messages) : Moves answers k k' :=
  have hcontext : k'.context = k.context := funext fun c => by
    rw [Kernel.context, Kernel.context, hcontexts]
  have hlines : KeepsLines k k' :=
    ⟨Nat.le_of_eq (by rw [hcontexts]), fun c _ => by rw [Kernel.line, hcontext, Kernel.line]⟩
  moves_of_undisturbed (show Undisturbed k k' [] from
    ⟨fun c => by rw [hcontext], hlines, Nat.le_of_eq hframes.symm, hmessages⟩)

theorem moves_gatherBegin (k : Kernel) (c : ContextId) (pattern : Term)
    (hc : c.index < k.contexts.size) : Moves answers k (k.gatherBegin c pattern) := fun es =>
  ⟨_, [], by
    rw [List.append_nil]
    exact (Step.opens c pattern hc).run⟩

theorem moves_gatherEnd (k : Kernel) (c : ContextId) :
    Moves answers k (k.gatherEnd c).2 := fun es =>
  ⟨_, [], by
    rw [List.append_nil]
    exact (Step.closes c).run⟩

/-- Actions may change a kernel by steps, whether they succeed or fail. -/
def moving (answers : Answers) : Contract where
  Ok := Moves answers
  Fails _ := Moves answers
  refl := .refl
  trans := .trans
  trans_fails := .trans

/-- Contexts that exist evaluate. -/
def existing (answers : Answers) : (moving answers).Scope where
  From c k := c.index < k.contexts.size
  keeps hc h := Nat.lt_of_lt_of_le hc h.size_le

theorem agreeFrom_moving_iff {α : Type} {x : EvalM α} :
    (moving answers).AgreeFrom k x x ↔ Moves answers k (x.run k).2 := by
  refine ⟨fun h => ?_, fun h => ⟨rfl, ?_⟩⟩
  · have hleaves := h.leaves
    cases hresult : (x.run k).1 <;> rw [hresult] at hleaves <;> exact hleaves
  · cases (x.run k).1 <;> exact h

theorem calm_share (t : Term) : (moving answers).Calm (Termwise.share t) :=
  Contract.calm_modifyGet fun _ => moves_of_eq rfl rfl rfl

theorem calm_checkAbort (c : ContextId) : (moving answers).Calm (checkAbort c) := by
  refine Contract.calm_bind (Contract.calm_modify fun _ => moves_of_eq rfl rfl rfl) fun _ =>
    Contract.calm_bind Contract.calm_get fun _ => ?_
  split
  · exact Contract.calm_throw .refl
  · exact Contract.calm_pure _

/-- Matching changes kernels by steps if evaluation and rewriting do. -/
theorem steps_isMatch {r : Evaluator} {c : ContextId}
    (hevaluate : ∀ t, Steps answers c (r.evaluate c t))
    (hrewrite : ∀ lhs rhs t, Steps answers c (r.rewrite c lhs rhs t)) (t pattern : Term) :
    Steps answers c (r.isMatch c t pattern) := by
  have hcallees : (r.callees c).Alike (r.callees c) ((existing answers).agreeing c)
      ((existing answers).From c) :=
    ⟨fun hf => Contract.alike_get fun k hk => hf k hk k hk, fun t => (calm_share t).alike,
      (calm_checkAbort c).alike⟩
  have hrules : (r.callees c).RewritesAlike (r.callees c) ((existing answers).agreeing c)
      fun _ _ => True :=
    fun lhs rhs t _ k hk => agreeFrom_moving_iff.mpr (hrewrite lhs rhs t k hk)
  have hsurroundings := Callees.alike_surroundings hcallees
    (fun (_ : True) t k hk => agreeFrom_moving_iff.mpr (hevaluate t k hk))
    fun (_ : True) => Callees.alike_default? hcallees hrules (Callees.rules_true _ .default)
  have hmatch : ((existing answers).agreeing c).Alike (r.isMatch c t pattern)
      (r.isMatch c t pattern) :=
    ((existing answers).agreeing c).alike_bind (Callees.alike_match? hsurroundings t pattern)
      fun b => ((existing answers).agreeing c).alike_pure b.isSome
  exact fun k hk => agreeFrom_moving_iff.mp (hmatch k hk)

/-! ## running the code -/

section

variable {r : Evaluator} {c : ContextId} {value tag : Term}

/-- From a stage on, running the code of an emission is a run. -/
def Completes (answers : Answers) (r : Evaluator) (c : ContextId) (value tag : Term)
    (stage : Stage) : Prop :=
  ∀ k es later, c.index < k.contexts.size → ∃ history later',
    Run answers ⟨k, es ++ ⟨c, value, tag, .running stage⟩ :: later⟩ history
      ⟨((stage.finish r c value tag).run k).2,
        es ++ ⟨c, value, tag, .ofResult ((stage.finish r c value tag).run k).1⟩ :: later'⟩

/-- Matching in a context changes kernels by steps, and answers as it may. -/
structure Matches (answers : Answers) (r : Evaluator) (c : ContextId) (tag : Term) : Prop where
  steps : ∀ pattern, Steps answers c (r.isMatch c tag pattern)
  answered : ∀ pattern k, answers c tag pattern ((r.isMatch c tag pattern).run k).1

/-- The code takes an action as a system does, after the steps of the match if there is one. -/
theorem exists_act (hmatch : Matches answers r c tag) (value : Term) (stage : Stage)
    (hc : c.index < k.contexts.size) : ∃ answer k₁, Moves answers k k₁ ∧
      stage.Answered (answers c tag) answer ∧
      (stage.next (r.isMatch c tag) value tag).run k = stage.act answer value tag k₁ := by
  unfold Stage.act
  match stage with
  | .search [] seen =>
      exact ⟨.ok true, k, .refl k, trivial, by rw [Stage.run_next_nil, Stage.run_next_nil]⟩
  | .search (owner :: rest) seen => exact ⟨.ok true, k, .refl k, trivial, rfl⟩
  | .asks owner frame frames rest =>
      have hmoves := hmatch.steps frame.pattern k hc
      have hanswered := hmatch.answered frame.pattern k
      rcases hanswer : (r.isMatch c tag frame.pattern).run k with ⟨answer, k₁⟩
      rw [hanswer] at hmoves hanswered
      refine ⟨answer, k₁, hmoves, hanswered, ?_⟩
      rw [Stage.run_next_asks owner frame frames rest hanswer,
        Stage.run_next_asks owner frame frames rest rfl]
  | .offers owner frame frames rest =>
      exact ⟨.ok true, k, .refl k, trivial,
        by rw [Stage.run_next_offers, Stage.run_next_offers]⟩

/-- Running the code from a stage is a run if that holds of the stages that may be next. -/
theorem completes_of_next (hmatch : Matches answers r c tag) {stage : Stage}
    (hnext : ∀ k act stage' k', (stage.next (r.isMatch c tag) value tag).run k =
      (.ok (act, some stage'), k') → Completes answers r c value tag stage') :
    Completes answers r c value tag stage := by
  intro k es later hc
  -- the steps of the match, then the action, then what the code has left to do
  obtain ⟨answer, k₁, hmoves, hanswered, hact⟩ := exists_act hmatch value stage hc
  rcases hresult : (stage.next (r.isMatch c tag) value tag).run k with ⟨result, k'⟩
  obtain ⟨history, more, hrun⟩ := hmoves (es ++ ⟨c, value, tag, .running stage⟩ :: later)
  rw [List.append_assoc, List.cons_append] at hrun
  have hplace : (es ++ ⟨c, value, tag, .running stage⟩ :: (later ++ more))[es.length]? =
      some ⟨c, value, tag, .running stage⟩ := by simp
  have hstep := hrun.snoc (Step.acts hplace rfl hanswered (hact.symm.trans hresult))
  simp only [List.set_append_right _ _ (Nat.le_refl _), Nat.sub_self, List.set_cons_zero] at hstep
  rw [Stage.finish_eq]
  match result with
  | .ok (act, some stage') =>
      have hc' : c.index < k'.contexts.size := Nat.lt_of_lt_of_le hc hstep.keepsLines.1
      obtain ⟨history', later', hrun'⟩ := hnext k act stage' k' hresult k' es (later ++ more) hc'
      rw [EvalM.run_bind_ok hresult]
      exact ⟨_, later', hstep.trans hrun'⟩
  | .ok (act, none) =>
      rw [EvalM.run_bind_ok hresult]
      exact ⟨_, _, hstep⟩
  | .error e =>
      rw [EvalM.run_bind_error hresult]
      exact ⟨_, _, hstep⟩

theorem completes_ask (hmatch : Matches answers r c tag) (owner : ContextId)
    {rest : List ContextId} (hrest : ∀ seen, Completes answers r c value tag (.search rest seen))
    (frames : List GatherFrame) :
    ∀ seen, Completes answers r c value tag (.ask owner rest seen frames) := by
  induction frames with
  | nil => exact hrest
  | cons frame frames ih =>
      refine fun _ => completes_of_next hmatch fun k _ _ _ hnext => ?_
      have hoffers : Completes answers r c value tag (.offers owner frame frames rest) := by
        refine completes_of_next hmatch fun _ _ _ _ hnext => ?_
        rw [Stage.run_next_offers] at hnext
        split at hnext <;> cases hnext
        exact ih true
      rcases hanswer : (r.isMatch c tag frame.pattern).run k with ⟨answer, k₁⟩
      rw [Stage.ask, Stage.run_next_asks owner frame frames rest hanswer] at hnext
      cases answer with
      | error e => cases hnext
      | ok accepted => cases accepted <;> cases hnext <;> [exact ih true; exact hoffers]

theorem completes_search (hmatch : Matches answers r c tag)
    (owners : List ContextId) : ∀ seen, Completes answers r c value tag (.search owners seen) := by
  induction owners with
  | nil =>
      refine fun seen => completes_of_next hmatch fun _ _ _ _ hnext => ?_
      rw [Stage.run_next_nil] at hnext
      cases hnext
  | cons owner rest ih =>
      refine fun seen => completes_of_next hmatch fun _ _ _ _ hnext => ?_
      rw [Stage.run_next_cons] at hnext
      cases hnext
      exact completes_ask hmatch owner ih _ seen

/-- Running the code of an emission is a run of the system, in which the emission ends as the code
does. -/
theorem exists_run_emit (hmatch : Matches answers r c tag) (value : Term) (s : System)
    (hc : c.index < s.kernel.contexts.size) : ∃ history later,
      Run answers s history ⟨((r.emit c value tag).run s.kernel).2, s.emissions ++
        ⟨c, value, tag, .ofResult ((r.emit c value tag).run s.kernel).1⟩ :: later⟩ := by
  have hcompletes : Completes answers r c value tag (.search (s.kernel.line c) false) :=
    completes_search hmatch _ _
  obtain ⟨history, later, hrun⟩ := hcompletes s.kernel s.emissions [] hc
  exact ⟨_, later, (Step.starts c value tag hc).run.trans hrun⟩

end

end Termwise.Gathering
