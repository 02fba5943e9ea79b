import Termwise.Proofs.Eval.Extension
import Termwise.Proofs.Eval.Forgetful

/-!
# Termwise.Proofs.Eval.Recollection

What is remembered makes no difference.  The evaluator, which stamps nodes and answers
stamped ones at once, does what reference evaluation does (`Evaluator.follows_ofFuel`),
as long as the latter does not give up: the two give structurally equal results, or
throw structurally equal terms.

The invariant (`Kernel.Recalls`) is that every node with a current stamp stands for a fixed
point of reference evaluation.  A node is stamped when a round ends with it, and then the
reference has come to it in a round of its own, so to a fixed point.  When a stamped node
is met again, the reference evaluates it, and because it is a fixed point gets it back.
-/

namespace Termwise

open Correspondence Evaluator

/-! ## kernels that remember fixed points -/

namespace Kernel

/-- Reference evaluation gives the term back. -/
def IsFixed (k : Kernel) (c : ContextId) (t : Term) : Prop :=
  ∃ fuel depth, (k.reference c fuel depth).evaluate t = .ok t.strip

/-- Every node that is remembered stands for a fixed point of evaluation with the definitions of a
kernel. -/
def RemembersFixed (k₀ : Kernel) (c : ContextId) (ledger : List Term) (k : Kernel) : Prop :=
  ∀ i t, i ≠ 0 → k.stampGeneration? c = some (k.stamps.getD i 0) → ledger[i]? = some t →
    k₀.IsFixed c t

/-- In the context evaluation is not interrupted, and native functions look at nothing but the
structure of calls. -/
structure Repeats (k : Kernel) (c : ContextId) : Prop where
  known : c.index < k.contexts.size
  quiet : k.Quiet c
  generation : 0 < k.generation
  functions : ∀ s usage f, (k.record s).code.get usage = some (.function f) →
    (Native.function f).IsStructural

/-- A later kernel of a run that started with a first one, at a nesting depth of its own: it reports
no limit, and remembers fixed points. -/
structure Recalls (k₀ : Kernel) (c : ContextId) (depth : Nat) (w : Ledgers) (k : Kernel) : Prop
    extends k₀.Still k where
  depth : k.depth c = depth
  reports : k.reports = k₀.reports
  booked : k.Booked c w.first
  same : w.second = w.first
  fixed : k₀.RemembersFixed c w.first k

variable {k₀ k k' : Kernel} {c : ContextId} {depth : Nat} {w : Ledgers} {t : Term}

theorem IsFixed.of_strip_eq {t' : Term} (h : k₀.IsFixed c t) (heq : t.strip = t'.strip) :
    k₀.IsFixed c t' := by
  obtain ⟨fuel, depth, hfixed⟩ := h
  have he := k₀.reference_idempotent c fuel depth
  refine ⟨fuel, depth, ?_⟩
  rw [← he.evaluate_strip, ← heq, he.evaluate_strip, hfixed]

theorem Recalls.stampGeneration?_eq (h : k₀.Recalls c depth w k) :
    k.stampGeneration? c = k₀.stampGeneration? c := h.definitions.stampGeneration?_eq c

/-- Changes that leave definitions and stamps alone. -/
theorem Recalls.change (h : k₀.Recalls c depth w k) (hk : k.Still k')
    (hreports : k'.reports = k.reports) (hstamps : k'.stamps = k.stamps) :
    k₀.Recalls c (k'.depth c) w k' where
  toStill := h.toStill.trans hk
  depth := rfl
  reports := hreports.trans h.reports
  booked := h.booked.of_still hk (List.prefix_refl _) (h.booked.size.trans (by rw [hstamps]))
  same := h.same
  fixed i t hi hstamp ht := by
    rw [hk.definitions.stampGeneration?_eq, hstamps] at hstamp
    exact h.fixed i t hi hstamp ht

theorem Recalls.stands (h : k₀.Recalls c depth w k) (hk : k.Stands k')
    (hreports : k'.reports = k.reports) (hstamps : k'.stamps = k.stamps) :
    k₀.Recalls c depth w k' := by
  have hchanged := h.change hk.toStill hreports hstamps
  rwa [hk.depth, h.depth] at hchanged

/-- Naming nodes stamps none. -/
theorem Recalls.share (h : k₀.Recalls c depth w k) (hgeneration : 0 < k₀.generation)
    (ht : t.Booked w.first) : ∃ w', w ≤ w' ∧ k₀.Recalls c depth w' (k.share t).2 ∧
      (k.share t).1.Booked w'.first := by
  obtain ⟨ledger, hle, hbooked, hshared⟩ := h.booked.exists_share ht
  have hk := k.preserves_share t
  refine ⟨⟨ledger, ledger⟩, ⟨hle, by rw [h.same]; exact hle⟩, ?_, hshared⟩
  refine ⟨h.toStill.trans hk.toStill, (hk.depth c).trans h.depth, h.reports, hbooked, rfl, ?_⟩
  intro i u hi hstamp hu
  rw [hk.definitions.stampGeneration?_eq] at hstamp
  by_cases hold : i < k.stamps.size
  · have hget : (k.share t).2.stamps.getD i 0 = k.stamps.getD i 0 := by
      simp only [Kernel.share, Array.getD_eq_getD_getElem?, Array.getElem?_append_left hold]
    have hentry : w.first[i]? = some u := by
      obtain ⟨rest, rfl⟩ := hle
      rwa [List.getElem?_append_left (by rwa [h.booked.size])] at hu
    exact h.fixed i u hi (hget ▸ hstamp) hentry
  · -- a node named just now has never been stamped
    have hget : (k.share t).2.stamps.getD i 0 = 0 := by
      simp only [Kernel.share, Array.getD_eq_getD_getElem?,
        Array.getElem?_append_right (Nat.le_of_not_lt hold), Array.getElem?_replicate]
      split <;> rfl
    have hzero : k₀.generation = 0 := by
      rw [h.stampGeneration?_eq, hget, stampGeneration?] at hstamp
      split at hstamp
      · cases hstamp
      · exact Option.some.inj hstamp
    omega

/-- A fixed point may be stamped. -/
theorem Recalls.stamp (h : k₀.Recalls c depth w k) (ht : t.Booked w.first)
    (hfixed : k₀.IsFixed c t) : k₀.Recalls c depth w (k.stamp c t (k₀.stampGeneration? c)) := by
  have hk := k.preserves_stamp c t (k₀.stampGeneration? c)
  have hsize : (k.stamp c t (k₀.stampGeneration? c)).stamps.size = k.stamps.size := by
    unfold Kernel.stamp markEvaluated
    repeat' split
    all_goals simp
  have hreports : (k.stamp c t (k₀.stampGeneration? c)).reports = k.reports := by
    unfold Kernel.stamp markEvaluated
    repeat' split
    all_goals rfl
  refine ⟨h.toStill.trans hk.toStill, (hk.depth c).trans h.depth, hreports.trans h.reports,
    h.booked.of_still hk.toStill (List.prefix_refl _) (h.booked.size.trans hsize.symm), h.same, ?_⟩
  intro i u hi hstamp hu
  rw [hk.definitions.stampGeneration?_eq] at hstamp
  by_cases hself : ∃ f xs, t = .node i f xs
  · obtain ⟨f, xs, rfl⟩ := hself
    have hentry := (Term.booked_node.mp ht).1.resolve_left hi
    rw [hu, Option.some.injEq] at hentry
    exact hfixed.of_strip_eq (by rw [hentry, Term.strip_strip])
  · have hget : (k.stamp c t (k₀.stampGeneration? c)).stamps.getD i 0 = k.stamps.getD i 0 := by
      unfold Kernel.stamp markEvaluated
      split
      · cases t with
        | node j f xs =>
            dsimp only
            split
            · rfl
            · have hne : j ≠ i := fun hj => hself ⟨f, xs, by rw [hj]⟩
              simp [Array.getD_eq_getD_getElem?, Array.getElem?_setIfInBounds_ne hne]
        | _ => rfl
      · rfl
    exact h.fixed i u hi (hget ▸ hstamp) hu

/-- A node that is remembered is a fixed point. -/
theorem Recalls.isFixed (h : k₀.Recalls c depth w k) {i : Nat} {f : Term} {xs : List Term}
    (ht : (Term.node i f xs).Booked w.first)
    (hremembers : k.Remembers c (.node i f xs)) : k₀.IsFixed c (.node i f xs) := by
  rw [Remembers] at hremembers
  cases hgeneration : k.stampGeneration? c with
  | none => rw [hgeneration] at hremembers; cases hremembers
  | some generation =>
      rw [hgeneration, Option.any_some, isEvaluated, Bool.and_eq_true, bne_iff_ne, beq_iff_eq]
        at hremembers
      obtain ⟨hi, hstamp⟩ := hremembers
      have hentry := (Term.booked_node.mp ht).1.resolve_left hi
      exact (h.fixed i _ hi (by rw [hgeneration, hstamp]) hentry).of_strip_eq (Term.strip_strip _)

theorem Recalls.enter (h : k₀.Recalls c depth w k) (hc : c.index < k₀.contexts.size) :
    k₀.Recalls c (depth + 1) w (k.enter c) := by
  have hentered := h.change (k.still_enter c) rfl rfl
  rwa [depth_enter (by rwa [h.definitions.size]), h.depth] at hentered

theorem Recalls.leave (h : k₀.Recalls c (depth + 1) w k) (hc : c.index < k₀.contexts.size) :
    k₀.Recalls c depth w (k.leave c) := by
  have hleft := h.change (k.still_leave c) rfl rfl
  rwa [depth_leave_eq, if_pos ⟨rfl, by rwa [h.definitions.size]⟩, h.depth, Nat.add_sub_cancel]
    at hleft

end Kernel

/-! ## runs beside the reference -/

/-- Unless the reference gives up, the evaluator does the same, and goes on as a run that started
with a first kernel. -/
def Kernel.KeepsUp (k₀ : Kernel) (c : ContextId) (depth : Nat) {α β : Type} (w : Ledgers)
    (R : Ledgers → α → β → Prop) (x : EvalM α) (y : Except EvalError β) : Prop :=
  y ≠ .error .outOfFuel → ∀ w' k, w ≤ w' → k₀.Recalls c depth w' k →
    ∃ w'', w' ≤ w'' ∧ k₀.Recalls c depth w'' (x.run k).2 ∧
      Likeness.structural.Outcomes w'' R (x.run k).1 y

/-- What comes next may depend on what the reference has come to. -/
theorem Kernel.KeepsUp.bind {k₀ : Kernel} {c : ContextId} {depth : Nat} {w : Ledgers}
    {α β γ δ : Type} {R : Ledgers → α → β → Prop} {S : Ledgers → γ → δ → Prop} {x : EvalM α}
    {y : Except EvalError β} {f : α → EvalM γ} {g : β → Except EvalError δ}
    (hx : k₀.KeepsUp c depth w R x y)
    (hf : ∀ w' a b, w ≤ w' → R w' a b → y = .ok b → k₀.KeepsUp c depth w' S (f a) (g b)) :
    k₀.KeepsUp c depth w S (x >>= f) (y >>= g) := by
  intro hy w' k hw hk
  have hbefore : y ≠ .error .outOfFuel := fun hout => hy (by rw [hout]; rfl)
  obtain ⟨w₁, hw₁, hk₁, hresult⟩ := hx hbefore w' k hw hk
  rcases hrun : x.run k with ⟨result, k₁⟩
  rw [hrun] at hk₁ hresult
  cases hresult with
  | ok hab =>
      rw [EvalM.run_bind_ok hrun]
      obtain ⟨w₂, hw₂, hk₂, hend⟩ := hf w₁ _ _ (hw.trans hw₁) hab rfl hy w₁ k₁ le_rfl hk₁
      exact ⟨w₂, hw₁.trans hw₂, hk₂, hend⟩
  | error he =>
      rw [EvalM.run_bind_error hrun]
      exact ⟨w₁, hw₁, hk₁, .error he⟩

/-- Runs that keep up with the reference. -/
def Kernel.recalling (k₀ : Kernel) (c : ContextId) (depth : Nat) :
    Correspondence Ledgers EvalM (Except EvalError) where
  Alike := k₀.KeepsUp c depth
  later hw h hy w' k hw' hk := h hy w' k (hw.trans hw') hk
  alike_pure h _ w' _ hw hk := ⟨w', le_rfl, hk, .ok (h w' hw)⟩
  alike_bind hx hf := Kernel.KeepsUp.bind hx fun w' a b hw hab _ => hf w' a b hw hab

namespace Kernel

variable {k₀ : Kernel} {c : ContextId} {depth : Nat} {w : Ledgers} {α γ δ : Type}
  {S : Ledgers → γ → δ → Prop} {f : α → EvalM γ} {z : Except EvalError δ}

/-- What the evaluator does where the reference knows what comes of it. -/
theorem recalling_ok {β : Type} {R : Ledgers → α → β → Prop} {x : EvalM α} {b : β}
    (hx : (k₀.recalling c depth).Alike w R x (.ok b))
    (hf : ∀ w' a, w ≤ w' → R w' a b → (k₀.recalling c depth).Alike w' S (f a) z) :
    (k₀.recalling c depth).Alike w S (x >>= f) z :=
  KeepsUp.bind (g := fun _ => z) hx fun w' a b' hw hab heq => by
    cases heq
    exact hf w' a hw hab

/-- What only the evaluator does, and what leaves it as such a run. -/
theorem recalling_then {u : EvalM α} (hu : ∀ w' k, w ≤ w' → k₀.Recalls c depth w' k →
      ∃ a k' w'', u.run k = (.ok a, k') ∧ w' ≤ w'' ∧ k₀.Recalls c depth w'' k' ∧
        (k₀.recalling c depth).Alike w'' S (f a) z) :
    (k₀.recalling c depth).Alike w S (u >>= f) z := by
  intro hz w' k hw hk
  obtain ⟨a, k', w'', hrun, hw', hk', hf⟩ := hu w' k hw hk
  rw [EvalM.run_bind_ok hrun]
  obtain ⟨w₂, hw₂, hk₂, hend⟩ := hf hz w'' k' le_rfl hk'
  exact ⟨w₂, hw'.trans hw₂, hk₂, hend⟩

theorem recalling_get {f : Kernel → EvalM γ} (h : ∀ w' k, w ≤ w' → k₀.Recalls c depth w' k →
      (k₀.recalling c depth).Alike w' S (f k) z) :
    (k₀.recalling c depth).Alike w S (get >>= f) z :=
  recalling_then fun w' k hw hk => ⟨k, k, w', rfl, le_rfl, hk, h w' k hw hk⟩

theorem recalling_modify {f : Kernel → Kernel} {x : EvalM γ}
    (hf : ∀ w' k, w ≤ w' → k₀.Recalls c depth w' k → k₀.Recalls c depth w' (f k))
    (h : (k₀.recalling c depth).Alike w S x z) :
    (k₀.recalling c depth).Alike w S (modify f >>= fun _ => x) z :=
  recalling_then fun w' k hw hk =>
    ⟨(), f k, w', rfl, le_rfl, hf w' k hw hk, (k₀.recalling c depth).later hw h⟩

end Kernel

/-! ## evaluators that keep up -/

/-- The evaluator keeps up with what a reference calls itself by. -/
structure Evaluator.Follows (r : Evaluator) (e : Callees (Except EvalError)) (k₀ : Kernel)
    (c : ContextId) (depth : Nat) : Prop where
  kernel : e.kernel = .ok k₀
  share : ∀ t, e.share t = .ok t.strip
  poll : e.poll = .ok ()
  evaluate : ∀ {w t t'}, Likeness.structural.Like w t t' →
    (k₀.recalling c depth).Alike w Likeness.structural.Like (r.evaluate c t) (e.evaluate t')
  rewrite : ∀ {w lhs lhs' rhs rhs' t t'}, Likeness.structural.Like w lhs lhs' →
    Likeness.structural.Like w rhs rhs' → Likeness.structural.Like w t t' →
    (k₀.recalling c depth).Answers w Likeness.structural.Like (r.rewrite c lhs rhs t)
      (e.rewrite lhs' rhs' t')

mutual

theorem Term.booked_strip {ledger : List Term} : ∀ t : Term, t.strip.Booked ledger
  | .node _ f xs => by
      rw [strip]
      exact booked_node.mpr ⟨.inl rfl, booked_strip f, booked_stripAll xs⟩
  | .text _ | .host _ | .magic _ | .int _ | .float _ | .symbol _ => .inl rfl

theorem Term.booked_stripAll {ledger : List Term} : ∀ ts : List Term,
    ∀ t ∈ stripAll ts, t.Booked ledger
  | [] => nofun
  | t :: ts => List.forall_mem_cons.mpr ⟨booked_strip t, booked_stripAll ts⟩

end

theorem Likeness.structural_strip {w : Ledgers} {t t' : Term} (h : structural.Like w t t') :
    structural.Like w t t'.strip :=
  ⟨h.1.trans (Term.strip_strip t').symm, h.2.1, Term.booked_strip t'⟩

namespace Kernel

variable {k₀ k : Kernel} {c : ContextId} {depth : Nat} {w : Ledgers} {t t' : Term}

theorem Recalls.settled (h : k₀.Recalls c depth w k) {list : RuleList}
    (hlist : list.All fun lhs rhs => lhs.Booked w.first ∧ rhs.Booked w.first) :
    list.Settled Likeness.structural w :=
  hlist.settled (h.same ▸ hlist)

theorem Recalls.sameRules (h : k₀.Recalls c depth w k) :
    Likeness.structural.SameRules w k k₀ where
  config := h.config.symm
  attributes := by
    funext s
    rw [Kernel.attributes, Kernel.attributes, h.definitions.record_eq]
  epoch := h.structureEpoch.symm
  rules? := by
    funext s cache
    rw [Kernel.rules?, Kernel.rules?, h.definitions.record_eq]
  settled s cache list hlist := h.settled (h.booked.rules s cache list hlist)

theorem recalling_share (hk₀ : k₀.Repeats c) (ht : Likeness.structural.Like w t t') :
    (k₀.recalling c depth).Alike w Likeness.structural.Like (Termwise.share t) (.ok t') := by
  intro _ w' k hw hk
  have ht := Likeness.structural.later hw ht
  obtain ⟨w'', hw', hk', hshared⟩ := hk.share hk₀.generation ht.2.1
  refine ⟨w'', hw', hk', .ok ⟨?_, hshared, ht.2.2.mono hw'.2⟩⟩
  exact (Term.strip_share t _).trans ht.1

theorem Recalls.quiet (h : k₀.Recalls c depth w k) (hk₀ : k₀.Repeats c) : k.Quiet c :=
  h.definitions.quiet hk₀.quiet

theorem Recalls.elapse (h : k₀.Recalls c depth w k) (nanos : Nat) :
    k₀.Recalls c depth w (k.elapse nanos) :=
  h.stands (k.preserves_elapse nanos).toStands rfl rfl

theorem recalling_poll (hk₀ : k₀.Repeats c) (w : Ledgers) :
    (k₀.recalling c depth).Alike w (fun _ _ _ => True) (checkAbort c) (.ok ()) := by
  intro _ w' k _ hk
  refine ⟨w', le_rfl, ?_⟩
  rw [run_checkAbort (hk.quiet hk₀)]
  exact ⟨hk.elapse lookTime, .ok trivial⟩

/-- A message that reports no limit. -/
theorem Recalls.addMessage (h : k₀.Recalls c depth w k) (s : Symbol) {tag : String}
    (htag : (Message.mk s.name tag []).isReport = false) (args : List Term) :
    k₀.Recalls c depth w (k.addMessage s tag args) :=
  h.stands (k.preserves_addMessage s tag args).toStands
    (List.countP_cons_of_neg (by rw [Message.isReport] at htag ⊢; rw [htag]; exact nofun)) rfl

/-- A change of what is pending, or of the report, in the context. -/
theorem Recalls.updateContext (h : k₀.Recalls c depth w k) {f : Context → Context}
    (hfixed : ∀ x, (f x).fixed = x.fixed) (hdepth : ∀ x, (f x).depth = x.depth)
    (hgathers : ∀ x, (f x).gathers = x.gathers) :
    k₀.Recalls c depth w (k.updateContext c f) :=
  h.stands (k.stands_updateContext c hfixed hdepth fun x => by rw [hgathers]) rfl rfl

end Kernel

namespace Evaluator

variable {r : Evaluator} {e : Callees (Except EvalError)} {k₀ : Kernel} {c : ContextId}
  {depth : Nat} {w : Ledgers} {t t' : Term}

section

variable (h : r.Follows e k₀ c depth) (hk₀ : k₀.Repeats c)

include h hk₀

/-- What the evaluator calls keeps up. -/
theorem Follows.callees : (r.callees c).Correspond e Likeness.structural (k₀.recalling c depth)
    fun w k k' => k' = k₀ ∧ k₀.Recalls c depth w k where
  kernel hfg := by
    rw [h.kernel]
    exact Kernel.recalling_get fun w' k hw hk => hfg w' k k₀ hw ⟨rfl, hk⟩
  rules hk := hk.1 ▸ hk.2.sameRules
  share {w t t'} ht := by
    rw [h.share]
    exact Kernel.recalling_share hk₀ (Likeness.structural_strip ht)
  poll w := by
    rw [h.poll]
    exact Kernel.recalling_poll hk₀ w
  evaluate := h.evaluate
  rewrite := h.rewrite

theorem Follows.findLocalRule? (s : Symbol) (ht : Likeness.structural.Like w t t') :
    (k₀.recalling c depth).Answers w Likeness.structural.Like (r.findLocalRule? c s t)
      (e.findLocalRule? c s t') := by
  refine (h.callees hk₀).kernel fun w' k k' hw hk => ?_
  obtain ⟨rfl, hk⟩ := hk
  rw [← hk.definitions.localRules?_eq]
  cases hrules : k.localRules? c s with
  | some list =>
      have hlist := hk.settled (hk.booked.localRules s list hrules)
      exact (h.callees hk₀).find? hlist (Likeness.structural.later hw ht)
  | none => exact answers_none

/-! ### native code -/

omit hk₀ in
theorem Follows.capture (ht : Likeness.structural.Like w t t') :
    (k₀.recalling c depth).Alike w Likeness.structural.Like (r.capture c t) (e.capture t') := by
  intro hy w' k hw hk
  have hout : e.evaluate t' ≠ .error .outOfFuel := fun hout => hy (by rw [Callees.capture, hout])
  obtain ⟨w'', hw', hk', hresult⟩ := h.evaluate ht hout w' k hw hk
  refine ⟨w'', hw', ?_⟩
  rw [Evaluator.capture, EvalM.run_bind_ok (EvalM.run_outcome _ k), Callees.capture]
  generalize ((r.evaluate c t).run k).1 = result, e.evaluate t' = result' at hresult ⊢
  cases hresult with
  | ok hv => exact ⟨hk', .ok hv⟩
  | error hfailure =>
      cases hfailure with
      | thrown hv =>
          exact ⟨hk'.updateContext (fun _ => rfl) (fun _ => rfl) fun _ => rfl, .ok hv⟩
      | other hnone =>
          rename_i failure
          cases failure with
          | thrown v => cases hnone
          | _ => exact ⟨hk', .error (.other rfl)⟩

omit h hk₀ in
theorem keepsUp_raise {α β : Type} {R : Ledgers → α → β → Prop}
    (ht : Likeness.structural.Like w t t') :
    (k₀.recalling c depth).Alike w R (Termwise.raise c t) (.error (.thrown t')) := by
  refine Kernel.recalling_modify (fun _ k _ hk => hk.updateContext (fun _ => rfl) (fun _ => rfl)
    fun _ => rfl) ?_
  exact fun _ w' k hw hk =>
    ⟨w', le_rfl, hk, .error (.thrown (Likeness.structural.later hw ht))⟩

theorem Follows.format (ht : Likeness.structural.Like w t t') :
    (k₀.recalling c depth).Alike w Likeness.structural.Like (r.format c t) (e.format t') := by
  unfold Evaluator.format Callees.format
  rw [Likeness.topmost?_eq ht]
  cases t'.topmost? with
  | none => exact (k₀.recalling c depth).alike_pure fun _ hw => Likeness.structural.later hw ht
  | some s =>
      refine (k₀.recalling c depth).alike_bind ((h.callees hk₀).findRule? s .format ht)
        fun w' o o' hw ho => (k₀.recalling c depth).alike_pure fun _ hw' => ?_
      cases ho with
      | none => exact Likeness.structural.later (hw.trans hw') ht
      | some hresult => exact Likeness.structural.later hw' hresult

/-- Native code makes of a call what the reference makes of it. -/
theorem Follows.run {code : Native} (hcode : ∀ f, code = .function f → code.IsStructural)
    (ht : Likeness.structural.Like w t t') :
    (k₀.recalling c depth).Answers w Likeness.structural.Like (r.run c code t)
      (e.run code t') := by
  have hlike := lasting_like Likeness.structural
  have hreturn : ∀ {v v'}, Likeness.structural.Like w v v' →
      (k₀.recalling c depth).Answers w Likeness.structural.Like (pure (some v))
        (pure (some v')) := fun hv =>
    (k₀.recalling c depth).alike_pure fun _ hw => .some (Likeness.structural.later hw hv)
  have hbool : ∀ b : Bool, Likeness.structural.Like w (.ofBool b) (.ofBool b) := fun b =>
    Likeness.structural.symbol w _
  unfold Evaluator.run Callees.run
  have hargs := Likeness.all_args ht
  generalize t.args = xs, t'.args = ys at hargs
  cases code with
  | function f =>
      have hfits : Twins.Fits Likeness.structural (.function f) := (hcode f rfl).fits
      exact (k₀.recalling c depth).alike_pure fun _ hw => (hfits ht).later hw
  | raise =>
      rcases hargs with _ | ⟨hx, _ | ⟨hy, hrest⟩⟩
      · exact answers_none
      · exact keepsUp_raise hx
      · exact answers_none
  | capture =>
      rcases hargs with _ | ⟨hx, _ | ⟨hy, hrest⟩⟩
      · exact answers_none
      · exact alike_some hlike (h.capture hx)
      · exact answers_none
  | release =>
      rcases hargs with _ | ⟨hx, _ | ⟨hy, hrest⟩⟩
      · exact hreturn (Likeness.app _ .nil)
      · exact hreturn hx
      · exact hreturn (Likeness.app _ (.cons hx (.cons hy hrest)))
  | isMatch =>
      rcases hargs with _ | ⟨hx, _ | ⟨hy, _ | ⟨hz, hrest⟩⟩⟩
      case cons.cons.nil =>
        exact alike_read ((h.callees hk₀).isMatch hx hy) fun matched => hreturn (hbool matched)
      all_goals exact answers_none
  | replace everywhere =>
      rcases hargs with _ | @⟨_, _, rules, rules', hx, hrest⟩
      · exact answers_none
      · refine (h.callees hk₀).kernel fun w' k k' hw hk => ?_
        rw [((h.callees hk₀).rules hk).attributes]
        have hrules := Rule.rel_mapM_ofTerm? k.attributes (Likeness.All.later hrest hw)
        generalize rules.mapM (Rule.ofTerm? k.attributes) = o,
          rules'.mapM (Rule.ofTerm? k.attributes) = o' at hrules
        cases hrules with
        | none => exact answers_none
        | some hrules =>
            exact alike_some hlike ((h.callees hk₀).replace Likeness.rebuilds_structural everywhere
              hrules (Likeness.structural.later hw hx))
  | format =>
      rcases hargs with _ | ⟨hx, _ | ⟨hy, hrest⟩⟩
      · exact answers_none
      · exact alike_some hlike (h.format hk₀ hx)
      · exact answers_none
  | _ => exact fun hgivesUp => absurd rfl hgivesUp

theorem Follows.runCode? (usage : CodeUsage) (s : Symbol) (ht : Likeness.structural.Like w t t') :
    (k₀.recalling c depth).Answers w Likeness.structural.Like (r.runCode? c usage t s)
      (e.runCode? usage t' s) := by
  refine (h.callees hk₀).kernel fun w' k k' hw hk => ?_
  obtain ⟨rfl, hk⟩ := hk
  rw [hk.definitions.record_eq]
  cases hcode : (k'.record s).code.get usage with
  | none => exact answers_none
  | some code =>
      refine h.run hk₀ (fun f hf => ?_) (Likeness.structural.later hw ht)
      subst hf
      exact hk₀.functions s usage f hcode

end

end Evaluator

end Termwise
