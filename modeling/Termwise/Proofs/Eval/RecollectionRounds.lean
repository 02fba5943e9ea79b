import Termwise.Proofs.Eval.Recollection

/-!
# Termwise.Proofs.Eval.RecollectionRounds

Calls and rounds of an evaluator that remembers, beside the reference.  A round that ends
with a node stamps it, and the reference ends its round with a fixed point then
(`Kernel.isFixed_of_round`); where a node is remembered already, the reference gets it
back (`Kernel.IsFixed.evaluate_eq`), so the two go on alike.  Since evaluation nests as deep
in both, the evaluator keeps up with the reference (`follows_ofFuel`).
-/

namespace Termwise

open Correspondence Evaluator

/-! ## fixed points -/

namespace Kernel

variable {k₀ : Kernel} {c : ContextId} {fuel depth : Nat} {t v : Term}

/-- What a round of the reference ends with is a fixed point. -/
theorem isFixed_of_round (h : Reference.evaluateRound (k₀.reference c fuel) c depth t =
    .ok (.done v)) : k₀.IsFixed c v := by
  have hidem := Reference.evaluateRound_idem (k₀.reference_idempotent c fuel) h
  refine ⟨fuel + 1, depth, ?_⟩
  rw [hidem.1]
  exact Reference.evaluateRounds_of_done hidem.2 _

/-- A fixed point stays as it is wherever the reference does not give up on it. -/
theorem IsFixed.evaluate_eq (h : k₀.IsFixed c t)
    (hout : (k₀.reference c fuel depth).evaluate t ≠ .error .outOfFuel) :
    (k₀.reference c fuel depth).evaluate t = .ok t.strip := by
  obtain ⟨fuel', depth', hfixed⟩ := h
  have hleft := (k₀.extend_reference c (Nat.le_max_left fuel fuel')
    (Nat.le_max_left depth depth')).evaluate t
  have hright := (k₀.extend_reference c (Nat.le_max_right fuel fuel')
    (Nat.le_max_right depth depth')).evaluate t
  rw [hleft.resolve_left hout, ← hright.resolve_left (by rw [hfixed]; exact nofun), hfixed]

/-- The same of fewer rounds. -/
theorem IsFixed.evaluateRounds_eq (h : k₀.IsFixed c t) {left : Nat}
    (hleft : left ≤ k₀.config.maxIterations)
    (hout : Reference.evaluateRounds (k₀.reference c fuel) c depth left t ≠ .error .outOfFuel) :
    Reference.evaluateRounds (k₀.reference c fuel) c depth left t = .ok t.strip := by
  have hmore : Reference.evaluateRounds (k₀.reference c fuel) c depth left t =
      (k₀.reference c (fuel + 1) depth).evaluate t :=
    (Reference.alike_evaluateRounds (k₀.extend_reference c le_rfl) c le_rfl hleft t).resolve_left
      hout
  rw [hmore] at hout ⊢
  exact h.evaluate_eq hout

end Kernel

namespace Evaluator

variable {r : Evaluator} {e : Callees (Except EvalError)} {k₀ : Kernel} {c : ContextId}
  {depth : Nat} {w : Ledgers} {t t' : Term}

/-! ## parts of calls -/

section

variable (h : r.Follows e k₀ c depth) (hk₀ : k₀.Repeats c)

include h in
theorem Follows.evaluateArgs (attrs : Attributes) (i : Nat) {ts ts' : List Term}
    (hts : Likeness.structural.All w ts ts') :
    (k₀.recalling c depth).Alike w (Likeness.structural.Fill ts) (r.evaluateArgs c attrs i ts)
      (e.evaluateArgs attrs i ts') := by
  induction hts generalizing i with
  | nil => exact (k₀.recalling c depth).alike_pure fun _ _ => ⟨.nil, rfl⟩
  | @cons t t' ts ts' ht _ ih =>
      have hrest : ∀ {w' v v'}, w ≤ w' → Likeness.structural.Like w' v v' →
          (k₀.recalling c depth).Alike w' (Likeness.structural.Fill (t :: ts))
            (do return v :: (← r.evaluateArgs c attrs (i + 1) ts))
            (do return v' :: (← e.evaluateArgs attrs (i + 1) ts')) := fun hw hv =>
        (k₀.recalling c depth).alike_bind ((k₀.recalling c depth).later hw (ih (i + 1)))
          fun _ _ _ hw' hvs => (k₀.recalling c depth).alike_pure fun _ hw'' =>
            ⟨.cons (Likeness.structural.later (hw'.trans hw'') hv) (hvs.1.later hw''),
              congrArg (· + 1) hvs.2⟩
      simp only [Evaluator.evaluateArgs, Callees.evaluateArgs, Callees.evaluateArg,
        Likeness.hasHead_eq ht]
      split
      · rw [h.share]
        exact hrest le_rfl (Likeness.structural_strip ht)
      · exact (k₀.recalling c depth).alike_bind (h.evaluate ht) fun _ _ _ hw hv => hrest hw hv

/-- A call that is kept, or made anew, is like one made anew. -/
theorem like_rebuild {i j : Nat} {f g head head' : Term} {xs ys args args' : List Term}
    (ht : Likeness.structural.Like w (.node i f xs) (.node j g ys))
    (hhead : Likeness.structural.Like w head head')
    (hargs : Likeness.structural.Fill xs w args args') :
    Likeness.structural.Like w (rebuild (.node i f xs) head args) (.call head' args') := by
  obtain ⟨hstrip, hbooked, hbooked'⟩ := forall₂_structural_iff.mp hargs.1
  refine ⟨?_, ht.2.1.rebuild hhead.2.1 hbooked, Term.booked_call hhead.2.2 hbooked'⟩
  rw [Term.strip_rebuild ht.2.1 hhead.2.1 hbooked hargs.2, Term.strip_call, Term.strip_call,
    hhead.1, hstrip]

/-! ### normal forms -/

theorem recalling_threadListable (ht : Likeness.structural.Like w t t') :
    (k₀.recalling c depth).Answers w Likeness.structural.Like t.threadListable
      (pure t'.threaded?) := by
  unfold Term.threadListable Term.threaded?
  rw [(Likeness.all_args ht).listLengths_eq]
  cases Term.listLengths t'.args with
  | nil => exact answers_none
  | cons n rest =>
      by_cases hsame : rest.all (· == n) = true
      · simp only [if_pos hsame]
        exact (k₀.recalling c depth).alike_pure fun _ hw =>
          .some (Likeness.structural.later hw (Likeness.like_rows ht n))
      · simp only [if_neg hsame]
        exact Kernel.recalling_modify (fun _ k _ hk => hk.addMessage .thread rfl [t])
          answers_none

/-- Normal forms correspond; that lists are of different lengths is reported. -/
theorem recalling_normalize (attrs : Attributes) (ht : Likeness.structural.Like w t t') :
    (k₀.recalling c depth).Alike w Likeness.structural.Steps (normalize attrs t)
      (pure (arranged attrs t')) := by
  have hspliced := Likeness.like_spliced attrs ht
  have hsorted := Likeness.like_rearranged attrs hspliced
  rw [normalize_eq, arranged]
  by_cases hlistable : attrs.has .listable = true
  · simp only [if_pos hlistable]
    refine Kernel.recalling_ok (recalling_threadListable hspliced) fun w' o hw ho => ?_
    generalize (spliced attrs t').threaded? = o' at ho ⊢
    cases ho with
    | some hrows =>
        exact (k₀.recalling c depth).alike_pure fun _ hw =>
          .rewritten (Likeness.structural.later hw hrows)
    | none =>
        have hsorted := Likeness.structural.later hw hsorted
        exact (k₀.recalling c depth).alike_pure fun _ hw =>
          .done (Likeness.structural.later hw hsorted)
  · simp only [if_neg hlistable]
    exact (k₀.recalling c depth).alike_pure fun _ hw =>
      .done (Likeness.structural.later hw hsorted)

/-! ## calls -/

include h hk₀

theorem Follows.reduce (attrs : Attributes) (head : Option Symbol)
    (ht : Likeness.structural.Like w t t') :
    (k₀.recalling c depth).Answers w Likeness.structural.Like (r.reduce c attrs head t)
      (e.reduce c attrs head t') := by
  have hattempts := forall₂_attempts
    (R := (k₀.recalling c depth).Answers w Likeness.structural.Like)
    (fun cache s => (h.callees hk₀).findRule? s cache ht) (fun s => h.findLocalRule? hk₀ s ht)
    (fun usage s => h.runCode? hk₀ usage s ht) (Likeness.upSymbols_eq attrs ht)
    (Likeness.topmost?_eq (Likeness.like_key ht)) head
  rw [reduce_eq]
  exact alike_findSomeM? (lasting_like _) hattempts fun _ _ _ hx => hx

/-- A call may be stamped where the reference would end its round with it. -/
theorem Follows.finishCall (attrs : Attributes) (head : Option Symbol)
    (ht : Likeness.structural.Like w t t')
    (hdone : ∀ v, e.finishCall c attrs head t' = .ok (.done v) → k₀.IsFixed c v) :
    (k₀.recalling c depth).Alike w Likeness.structural.Steps
      (r.finishCall c (k₀.stampGeneration? c) attrs head t) (e.finishCall c attrs head t') := by
  refine Kernel.KeepsUp.bind ((h.callees hk₀).share ht) fun w₁ normal normal' hw₁ hnormal hshared =>
    Kernel.KeepsUp.bind (h.reduce hk₀ attrs head hnormal) fun w₂ o o' hw₂ ho hreduced => ?_
  cases ho with
  | some hresult =>
      exact (k₀.recalling c depth).alike_pure fun _ hw =>
        .rewritten (Likeness.structural.later hw hresult)
  | none =>
      have hfinished : e.finishCall c attrs head t' = .ok (.done normal') := by
        rw [Callees.finishCall, hshared, Except.bind_ok, hreduced]
        rfl
      have hnormal := Likeness.structural.later hw₂ hnormal
      have hfixed := (hdone normal' hfinished).of_strip_eq hnormal.1.symm
      refine Kernel.recalling_modify (fun _ k hw hk => ?_)
        ((k₀.recalling c depth).alike_pure fun _ hw =>
          .done (Likeness.structural.later hw hnormal))
      exact hk.stamp (Likeness.structural.later hw hnormal).2.1 hfixed

theorem Follows.arrangeCall (attrs : Attributes) {head head' : Term}
    (hhead : Likeness.structural.Like w head head') (ht : Likeness.structural.Like w t t')
    (hdone : ∀ v, e.arrangeCall c attrs head' t' = .ok (.done v) → k₀.IsFixed c v) :
    (k₀.recalling c depth).Alike w Likeness.structural.Steps
      (r.arrangeCall c (k₀.stampGeneration? c) attrs (symbol? head) t)
      (e.arrangeCall c attrs head' t') := by
  refine Kernel.recalling_ok (Kernel.recalling_share hk₀ ht) fun w₁ shared hw₁ hshared => ?_
  refine Kernel.recalling_ok (recalling_normalize attrs hshared) fun w₂ step hw₂ hstep => ?_
  unfold Callees.arrangeCall at hdone ⊢
  generalize arranged attrs t' = step' at hstep hdone ⊢
  cases hstep with
  | rewritten hrows =>
      exact (k₀.recalling c depth).alike_pure fun _ hw =>
        .rewritten (Likeness.structural.later hw hrows)
  | @done normal normal' hnormal =>
      dsimp only at hdone ⊢
      split
      · rename_i hsettles
        rw [if_pos hsettles] at hdone
        rw [Likeness.symbol?_eq hhead]
        exact h.finishCall hk₀ attrs _ hnormal hdone
      · exact fun hgivesUp => absurd rfl hgivesUp

/-- One round on a call. -/
theorem Follows.evaluateParts {i j : Nat} {f g : Term} {xs ys : List Term}
    (ht : Likeness.structural.Like w (.node i f xs) (.node j g ys))
    (hdone : ∀ v, e.evaluateParts c (.node j g ys) = .ok (.done v) → k₀.IsFixed c v) :
    (k₀.recalling c depth).Alike w Likeness.structural.Steps
      (r.evaluateParts c (k₀.stampGeneration? c) (.node i f xs))
      (e.evaluateParts c (.node j g ys)) := by
  rw [evaluateParts_eq]
  refine Kernel.KeepsUp.bind (h.evaluate (Likeness.structural.head ht))
    fun w₁ head head' hw₁ hhead hevaluated => ?_
  refine Kernel.recalling_get fun w₂ k hw₂ hk => ?_
  have hsame : k₀.attributes = k.attributes := hk.sameRules.attributes
  rw [h.kernel, Except.bind_ok, hsame, Likeness.symbol?_eq hhead]
  have ht := Likeness.structural.later (hw₁.trans hw₂) ht
  have hhead := Likeness.structural.later hw₂ hhead
  refine Kernel.KeepsUp.bind (h.evaluateArgs _ 1 (Likeness.structural.args ht))
    fun w₃ args args' hw₃ hargs hevaluatedArgs => ?_
  have hhead := Likeness.structural.later hw₃ hhead
  refine h.arrangeCall hk₀ _ hhead (like_rebuild (Likeness.structural.later hw₃ ht) hhead hargs)
    fun v hv => hdone v ?_
  rw [Callees.evaluateParts, hevaluated, Except.bind_ok, h.kernel, Except.bind_ok, hsame]
  dsimp only
  rw [hevaluatedArgs, Except.bind_ok]
  exact hv

/-- What a symbol is replaced by. -/
theorem Follows.evaluateSymbol (w : Ledgers) (s : Symbol) :
    (k₀.recalling c depth).Answers w Likeness.structural.Like (r.evaluateSymbol c s)
      (e.evaluateSymbol c s) := by
  refine (h.callees hk₀).kernel fun w' k k' _ hk => ?_
  obtain ⟨rfl, hk⟩ := hk
  rw [hk.definitions.record_eq, hk.definitions.localValue?_eq, Kernel.value?, Kernel.value?,
    hk.definitions.record_eq]
  split
  · exact answers_none
  · cases hvalue : (k'.localValue? c s).or (k'.record s).value with
    | some value =>
        have hbooked := hk.booked.value s value (by
          rwa [hk.definitions.localValue?_eq, Kernel.value?, hk.definitions.record_eq])
        refine (k'.recalling c depth).alike_pure fun _ hw => .some ⟨rfl, hbooked.mono hw.1, ?_⟩
        exact (hk.same ▸ hbooked).mono hw.2
    | none => exact (h.callees hk₀).findRule? s .own (Likeness.structural.symbol w' s)

omit h hk₀

end

/-- A call beside the reference, with its parts one level deeper. -/
theorem Follows.evaluateCall (h : r.Follows e k₀ c (depth + 1)) (hk₀ : k₀.Repeats c)
    (hroom : depth + 1 ≤ k₀.config.maxRecursion) {i j : Nat} {f g : Term} {xs ys : List Term}
    (ht : Likeness.structural.Like w (.node i f xs) (.node j g ys))
    (hdone : ∀ v, e.evaluateParts c (.node j g ys) = .ok (.done v) → k₀.IsFixed c v) :
    (k₀.recalling c depth).Alike w Likeness.structural.Steps (r.evaluateCall c (.node i f xs))
      (e.evaluateParts c (.node j g ys)) := by
  intro hy w₁ k hw₁ hk
  have hentered := hk.enter hk₀.known
  obtain ⟨w₂, hw₂, hk₂, hresult⟩ := h.evaluateParts hk₀ ht hdone hy w₁ _ hw₁ hentered
  have hget : (get : EvalM Kernel).run k = (.ok k, k) := rfl
  have henter : (modify fun k => k.enter c : EvalM PUnit).run k = (.ok (), k.enter c) := rfl
  have hget' : (get : EvalM Kernel).run (k.enter c) = (.ok (k.enter c), k.enter c) := rfl
  have hwithin : ¬(k.enter c).config.maxRecursion < (k.enter c).depth c := by
    rw [hentered.config, hentered.depth]
    exact Nat.not_lt.mpr hroom
  rw [Evaluator.evaluateCall, EvalM.run_bind_ok hget, EvalM.run_bind_ok henter, EvalM.run_ensuring,
    EvalM.run_bind_ok hget']
  dsimp only
  rw [if_neg hwithin, hk.stampGeneration?_eq]
  exact ⟨w₂, hw₂, hk₂.leave hk₀.known, hresult⟩

/-! ## rounds -/

section

variable {fuel depth' left : Nat} (hk₀ : k₀.Repeats c)

include hk₀

/-- A term may be stamped where the reference would end its round with it. -/
theorem recalling_endRound (ht : Likeness.structural.Like w t t') {x : EvalM Step}
    (hx : (k₀.recalling c depth).Alike w Likeness.structural.Steps x
      (Reference.roundStep (k₀.reference c fuel) c depth' t'.strip)) :
    (k₀.recalling c depth).Alike w Likeness.structural.Steps (x >>= endRound c t)
      (Reference.evaluateRound (k₀.reference c fuel) c depth' t') := by
  refine Kernel.KeepsUp.bind hx fun w₁ step step' hw₁ hstep hstepped => ?_
  have hdone : ∀ v, Reference.endRound t'.strip step' = .done v → k₀.IsFixed c v := by
    intro v hv
    have hround : Reference.evaluateRound (k₀.reference c fuel) c depth' t' = .ok (.done v) := by
      rw [Reference.evaluateRound, hstepped, Except.bind_ok, hv]
      rfl
    exact Kernel.isFixed_of_round hround
  cases hstep with
  | done hvalue =>
      exact (k₀.recalling c depth).alike_pure fun _ hw =>
        .done (Likeness.structural.later hw hvalue)
  | rewritten hnext =>
      rw [Reference.endRound] at hdone ⊢
      refine Kernel.recalling_ok (Kernel.recalling_share hk₀ hnext) fun w₂ next hw₂ hnext => ?_
      have ht := Likeness.structural.later (hw₁.trans hw₂) (Likeness.structural_strip ht)
      rw [Likeness.beq_congr hnext ht]
      have hnext := Likeness.structural_strip hnext
      split
      · rename_i hsame
        have hfixed := (hdone _ (if_pos hsame)).of_strip_eq hnext.1.symm
        refine Kernel.recalling_modify (fun _ k hw hk => ?_)
          ((k₀.recalling c depth).alike_pure fun _ hw =>
            .done (Likeness.structural.later hw hnext))
        rw [hk.stampGeneration?_eq]
        exact hk.stamp (Likeness.structural.later hw hnext).2.1 hfixed
      · exact (k₀.recalling c depth).alike_pure fun _ hw =>
          .rewritten (Likeness.structural.later hw hnext)

variable (hr : ∀ {depth depth'}, depth + depth' ≤ k₀.config.maxRecursion →
    r.Follows (k₀.reference c fuel depth') k₀ c depth)
  (hroom : depth + depth' ≤ k₀.config.maxRecursion)

include hr hroom

/-- A round on a term goes as one of the reference does, unless the term is remembered; then the
reference comes to it in the end. -/
theorem recalling_roundStep (hleft : left ≤ k₀.config.maxIterations)
    (ht : Likeness.structural.Like w t t')
    (hrest : ∀ {w' x}, w ≤ w' → (k₀.recalling c depth).Alike w' Likeness.structural.Steps x
      (Reference.roundStep (k₀.reference c fuel) c depth' t'.strip) →
      (k₀.recalling c depth).Alike w' Likeness.structural.Like
        (x >>= fun step => endRound c t step >>= r.afterRound c left)
        (Reference.evaluateRounds (k₀.reference c fuel) c depth' left t')) :
    (k₀.recalling c depth).Alike w Likeness.structural.Like
      (r.roundStep c t >>= fun step => endRound c t step >>= r.afterRound c left)
      (Reference.evaluateRounds (k₀.reference c fuel) c depth' left t') := by
  have hlike := Likeness.structural_strip ht
  cases t with
  | symbol s =>
      refine hrest le_rfl ?_
      rw [Likeness.eq_symbol hlike, Reference.roundStep_symbol]
      refine (k₀.recalling c depth).alike_bind ((hr hroom).evaluateSymbol hk₀ w s)
        fun w' o o' hw ho => ?_
      cases ho with
      | some hvalue =>
          exact (k₀.recalling c depth).alike_pure fun _ hw =>
            .rewritten (Likeness.structural.later hw hvalue)
      | none =>
          exact (k₀.recalling c depth).alike_pure fun w _ =>
            .done (Likeness.structural.symbol w s)
  | node i f xs =>
      rw [roundStep, bind_assoc]
      refine Kernel.recalling_get fun w₁ k hw₁ hk => ?_
      by_cases hremembers : (k.stampGeneration? c).any (k.isEvaluated (.node i f xs)) = true
      · rw [if_pos hremembers]
        intro hout w₂ k₂ hw₂ hk₂
        have hbooked := (Likeness.structural.later hw₁ ht).2.1
        have hfixed := (hk.isFixed hbooked hremembers).of_strip_eq ht.1
        rw [hfixed.evaluateRounds_eq hleft hout]
        exact ⟨w₂, le_rfl, hk₂, .ok (Likeness.structural.later (hw₁.trans hw₂) hlike)⟩
      · rw [if_neg hremembers]
        refine hrest hw₁ ?_
        obtain ⟨j, g, ys, hnode, -, -⟩ := Likeness.exists_node hlike
        have hlike := Likeness.structural.later hw₁ hlike
        rw [hnode] at hlike ⊢
        cases depth' with
        | zero => exact fun hgivesUp => absurd rfl hgivesUp
        | succ depth' =>
            have hdeeper : depth + 1 + depth' ≤ k₀.config.maxRecursion := by omega
            refine (hr hdeeper).evaluateCall hk₀ (by omega) hlike fun v hv => ?_
            have hround : Reference.evaluateRound (k₀.reference c fuel) c (depth' + 1) t' =
                .ok (.done v) := by
              rw [Reference.evaluateRound, hnode, Reference.roundStep, hv]
              rfl
            exact Kernel.isFixed_of_round hround
  | _ =>
      refine hrest le_rfl ?_
      generalize t'.strip = u at hlike ⊢
      have hstrip := hlike.1
      cases u with
      | node | symbol => simp [Term.strip] at hstrip
      | _ =>
          cases depth' <;> exact (k₀.recalling c depth).alike_pure fun _ hw =>
            .done (Likeness.structural.later hw hlike)

/-- Rounds on a term go as those of the reference, if what comes after the first one does. -/
theorem recalling_round {after : Step → Except EvalError Term}
    (hleft : left ≤ k₀.config.maxIterations) (ht : Likeness.structural.Like w t t')
    (hrounds : Reference.evaluateRounds (k₀.reference c fuel) c depth' left t' =
      (Reference.evaluateRound (k₀.reference c fuel) c depth' t' >>= after))
    (hdone : ∀ v, after (.done v) = .ok v)
    (hnext : ∀ {w' next next'}, Likeness.structural.Like w' next next' →
      (k₀.recalling c depth).Alike w' Likeness.structural.Like
        (r.afterRound c left (.rewritten next)) (after (.rewritten next'))) :
    (k₀.recalling c depth).Alike w Likeness.structural.Like (r.evaluateRounds c left t)
      (Reference.evaluateRounds (k₀.reference c fuel) c depth' left t') := by
  rw [evaluateRounds_eq, evaluateRound_eq]
  simp only [bind_assoc]
  refine Kernel.recalling_ok (Kernel.recalling_poll hk₀ w) fun w₁ _ hw₁ _ => ?_
  have ht := Likeness.structural.later hw₁ ht
  refine Kernel.recalling_ok (Kernel.recalling_share hk₀ ht) fun w₂ t hw₂ ht => ?_
  refine recalling_roundStep hk₀ hr hroom hleft ht fun hw hx => ?_
  rw [← bind_assoc, hrounds]
  refine (k₀.recalling c depth).alike_bind
    (recalling_endRound hk₀ (Likeness.structural.later hw ht) hx) fun w₃ step step' _ hstep => ?_
  cases hstep with
  | done hvalue =>
      rw [hdone]
      cases left <;> exact (k₀.recalling c depth).alike_pure fun _ hw =>
        Likeness.structural.later hw hvalue
  | rewritten hrewritten => exact hnext hrewritten

theorem recalling_evaluateRounds (hleft : left ≤ k₀.config.maxIterations)
    (ht : Likeness.structural.Like w t t') :
    (k₀.recalling c depth).Alike w Likeness.structural.Like (r.evaluateRounds c left t)
      (Reference.evaluateRounds (k₀.reference c fuel) c depth' left t') := by
  induction left generalizing w t t' with
  | zero =>
      exact recalling_round hk₀ hr hroom hleft ht rfl (fun _ => rfl) fun _ hgivesUp =>
        absurd rfl hgivesUp
  | succ left ih =>
      exact recalling_round hk₀ hr hroom hleft ht rfl (fun _ => rfl) fun hnext =>
        ih (Nat.le_of_succ_le hleft) hnext

/-- Evaluation goes as that of the reference. -/
theorem recalling_evaluateFully (ht : Likeness.structural.Like w t t') :
    (k₀.recalling c depth).Alike w Likeness.structural.Like (r.evaluateFully c t)
      ((k₀.reference c (fuel + 1) depth').evaluate t') := by
  refine Kernel.recalling_get fun w' k hw hk => ?_
  have hrounds := recalling_evaluateRounds hk₀ hr hroom le_rfl (Likeness.structural.later hw ht)
  dsimp only
  rw [hk.config]
  split
  · intro hout w₁ k₁ hw₁ hk₁
    obtain ⟨w₂, hw₂, hk₂, hresult⟩ := hrounds hout w₁ k₁ hw₁ hk₁
    rw [EvalM.run_ensuring]
    exact ⟨w₂, hw₂, hk₂.updateContext (fun _ => rfl) (fun _ => rfl) fun _ => rfl, hresult⟩
  · exact hrounds

end

/-! ## the evaluator -/

/-- The evaluator keeps up with a reference that has no more fuel, as long as there is room for the
calls that this may nest. -/
theorem follows_ofFuel (hk₀ : k₀.Repeats c) {fuel fuel' depth depth' : Nat} (hfuel : fuel ≤ fuel')
    (hroom : depth + depth' ≤ k₀.config.maxRecursion) :
    (ofFuel fuel').Follows (k₀.reference c fuel depth') k₀ c depth := by
  induction fuel generalizing fuel' depth depth' with
  | zero =>
      exact ⟨rfl, fun _ => rfl, rfl, fun _ hgivesUp => absurd rfl hgivesUp,
        fun _ _ _ hgivesUp => absurd rfl hgivesUp⟩
  | succ fuel ih =>
      cases fuel' with
      | zero => cases hfuel
      | succ fuel' =>
          have hr : ∀ {depth depth'}, depth + depth' ≤ k₀.config.maxRecursion →
              (ofFuel fuel').Follows (k₀.reference c fuel depth') k₀ c depth :=
            ih (Nat.le_of_succ_le_succ hfuel)
          exact ⟨rfl, fun _ => rfl, rfl, recalling_evaluateFully hk₀ hr hroom,
            ((hr hroom).callees hk₀).rewriteWith⟩

end Evaluator

end Termwise
