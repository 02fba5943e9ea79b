import Termwise.Eval.Step
import Termwise.Proofs.Eval.Callees
import Termwise.Proofs.Rule.Correspondence

/-!
# Termwise.Proofs.Eval.Counterparts

Lookups, searches and replacements in two runs, each in a monad of its own.  Where the
callees of the two correspond (`Callees.Correspond`), the terms they make do.  The two may
be runs of one evaluator on two kernels (`Proofs.Eval.Lockstep`), or a run of the evaluator
and a run of another program that evaluates by the same rules.
-/

namespace Termwise

open Correspondence

/-! ## slots and states of searches -/

namespace Likeness

variable {W : Type} [Preorder W]

/-- Slots of corresponding calls. -/
structure Slots (L : Likeness W) (w : W) (slot slot' : Slot) : Prop where
  head : L.Like w slot.head slot'.head
  index : slot.index = slot'.index
  count : slot.count = slot'.count

/-- States of two searches that correspond. -/
structure Searches (L : Likeness W) (w : W) (s s' : SearchState) : Prop where
  steps : s.steps = s'.steps
  slot : Option.Rel (L.Slots w) s.slot s'.slot

theorem lasting_searches (L : Likeness W) : Lasting L.Searches where
  later {w w' s s'} hw h := by
    refine ⟨h.steps, ?_⟩
    have hslot := h.slot
    generalize s.slot = o, s'.slot = o' at hslot
    cases hslot with
    | none => exact .none
    | some h => exact .some ⟨L.later hw h.head, h.index, h.count⟩

theorem Slots.all_keys {L : Likeness W} {w : W} {slot slot' : Slot} (h : L.Slots w slot slot') :
    L.All w slot.keys slot'.keys := by
  have hint := L.int w
  rw [Slot.keys, Slot.keys, h.index, h.count]
  exact .cons (app _ (.cons h.head (.cons (hint _) (.cons (hint _) .nil))))
    (.cons (app _ (.cons h.head (.cons (hint _) .nil))) (.cons (app _ (.cons h.head .nil)) .nil))

/-- What lookups read of two kernels is the same, and the rules in it correspond to themselves. -/
structure SameRules (L : Likeness W) (w : W) (k k' : Kernel) : Prop where
  config : k'.config = k.config
  attributes : k'.attributes = k.attributes
  epoch : k'.structureEpoch = k.structureEpoch
  rules? : k'.rules? = k.rules?
  settled : ∀ s cache list, k.rules? s cache = some list → list.Settled L w

/-- A call is made anew in both runs, or kept, or both to the same effect. -/
def Rebuilds (L : Likeness W) : Prop :=
  ∀ {w f f' head head' args args' xs xs'} {i j : Nat},
    L.Like w (.node i f args) (.node j f' args') → L.Like w head head' → L.All w xs xs' →
    xs.length = args.length → L.Like w (Evaluator.rebuild (.node i f args) head xs)
      (Evaluator.rebuild (.node j f' args') head' xs')

/-- Results that correspond, the first of which is besides as long as a given list. -/
def Fill (L : Likeness W) (args : List Term) (w : W) (xs ys : List Term) : Prop :=
  L.All w xs ys ∧ xs.length = args.length

end Likeness

/-! ## callees that correspond -/

/-- Callees of two runs correspond; what is done with the kernels that are read may depend on how
these do. -/
structure Callees.Correspond {W : Type} [Preorder W] {m n : Type → Type} [Monad m] [Monad n]
    (e : Callees m) (e' : Callees n) (L : Likeness W) (C : Correspondence W m n)
    (seen : W → Kernel → Kernel → Prop) : Prop where
  kernel : ∀ {α β : Type} {w : W} {R : W → α → β → Prop} {f : Kernel → m α} {g : Kernel → n β},
    (∀ w' k k', w ≤ w' → seen w' k k' → C.Alike w' R (f k) (g k')) →
    C.Alike w R (e.kernel >>= f) (e'.kernel >>= g)
  rules : ∀ {w k k'}, seen w k k' → L.SameRules w k k'
  share : ∀ {w t t'}, L.Like w t t' → C.Alike w L.Like (e.share t) (e'.share t')
  poll : ∀ w, C.Alike w (fun _ _ _ => True) e.poll e'.poll
  evaluate : ∀ {w t t'}, L.Like w t t' → C.Alike w L.Like (e.evaluate t) (e'.evaluate t')
  rewrite : ∀ {w lhs lhs' rhs rhs' t t'}, L.Like w lhs lhs' → L.Like w rhs rhs' → L.Like w t t' →
    C.Answers w L.Like (e.rewrite lhs rhs t) (e'.rewrite lhs' rhs' t')

namespace Callees

variable {W : Type} [Preorder W] {m n : Type → Type} [Monad m] [Monad n] {e : Callees m}
  {e' : Callees n} {L : Likeness W} {C : Correspondence W m n}
  {seen : W → Kernel → Kernel → Prop} {w : W} {t t' : Term}

section

variable (h : e.Correspond e' L C seen)

include h

/-! ## lookups -/

theorem Correspond.find? {list : RuleList} (hlist : list.Settled L w) (ht : L.Like w t t') :
    C.Answers w L.Like (e.find? list t) (e'.find? list t') := by
  refine h.kernel fun w' k k' hw hk => ?_
  have hsame := h.rules hk
  rw [hsame.attributes, hsame.epoch,
    ← RuleList.ready_congr k.attributes k.structureEpoch (L.strip_eq ht)]
  have hready := RuleList.All.ready (hlist.later hw) k.attributes k.structureEpoch t
  have ht := L.later hw ht
  exact RuleList.correspond_find? hready ht fun rule hrule =>
    Rule.correspond_applyWith hrule ht (h.rewrite hrule.lhs hrule.rhs ht)

theorem Correspond.findRule? (s : Symbol) (cache : RuleCache) (ht : L.Like w t t') :
    C.Answers w L.Like (e.findRule? s cache t) (e'.findRule? s cache t') := by
  refine h.kernel fun w' k k' hw hk => ?_
  have hsame := h.rules hk
  rw [hsame.rules?]
  cases hrules : k.rules? s cache with
  | some list => exact h.find? (hsame.settled s cache list hrules) (L.later hw ht)
  | none => exact answers_none

theorem Correspond.default? {slot slot' : Slot} (hslot : L.Slots w slot slot') :
    C.Answers w L.Like (e.default? slot) (e'.default? slot') := by
  unfold Callees.default?
  rw [Likeness.topmost?_eq hslot.head]
  cases slot'.head.topmost? with
  | none => exact answers_none
  | some s =>
      refine h.kernel fun w' k k' hw hk => ?_
      have hsame := h.rules hk
      rw [hsame.rules?]
      cases hrules : k.rules? s .default with
      | none => exact answers_none
      | some list =>
          have hlist := hsame.settled s .default list hrules
          refine alike_findSomeM? (lasting_like _) (hslot.all_keys.later hw)
            fun key _ key' hkey => C.alike_bind (h.share hkey) fun w'' key key' hw' hkey => ?_
          exact h.find? (hlist.later hw') hkey

/-! ## searches -/

variable [LawfulMonad m] [LawfulMonad n]

/-- What a search reads of the kernel is the same in both runs. -/
theorem Correspond.alike_kernel (w : W) : C.Alike w
    (fun _ k k' => k'.config = k.config ∧ k'.attributes = k.attributes) e.kernel e'.kernel := by
  rw [← bind_pure e.kernel, ← bind_pure e'.kernel]
  exact h.kernel fun _ _ _ _ hk => C.alike_pure fun _ _ =>
    ⟨(h.rules hk).config, (h.rules hk).attributes⟩

theorem Correspond.surroundings : e.surroundings.Correspond e'.surroundings L (.all L)
    (C.state L.Searches L.lasting_searches) where
  tick w := by
    refine alike_then (alike_modifyState fun _ hs => ⟨congrArg (· + 1) hs.steps, hs.slot⟩) ?_
    refine Correspondence.alike_bind _ alike_getState fun w₁ s s' _ hs => ?_
    refine Correspondence.alike_bind _ (alike_lift (lasting_const _) (h.alike_kernel w₁))
      fun w₂ k k' _ hk => ?_
    rw [hk.1, hs.steps]
    split
    · exact alike_lift (lasting_const _) (h.poll w₂)
    · exact Correspondence.alike_pure _ fun _ _ => trivial
  attributes w := by
    refine Correspondence.alike_bind _ (alike_lift (lasting_const _) (h.alike_kernel w))
      fun w₁ k k' _ hk => ?_
    exact Correspondence.alike_pure _ fun _ _ => hk.2.symm
  evaluate ht := alike_lift (lasting_like _) (h.evaluate ht)
  share ht := alike_lift (lasting_like _) (h.share ht)
  enter index count hhead := alike_modifyState fun hw hs =>
    ⟨hs.steps, .some ⟨L.later hw hhead, rfl, rfl⟩⟩
  default? _ w := by
    refine Correspondence.alike_bind _ alike_getState fun w₁ s s' _ hs => ?_
    have hslot := hs.slot
    generalize s.slot = o, s'.slot = o' at hslot
    cases hslot with
    | none => exact answers_none
    | some hslot => exact alike_lift (lasting_like _).maybe (h.default? hslot)

omit h in
/-- In surroundings that correspond, patterns that correspond up to their names match the same
subjects. -/
theorem correspond_isMatch {N : Naming} {Q : Requests W}
    (he : e.surroundings.Correspond e'.surroundings L Q (C.state L.Searches L.lasting_searches))
    {pattern pattern' : Term}
    (hpattern : L.Renames N Q w (fun _ => False) (.ofTerm pattern) (.ofTerm pattern'))
    (ht : L.Like w t t') :
    C.Alike w (fun _ => Eq) (e.isMatch t pattern) (e'.isMatch t' pattern') := by
  have hmatch : (C.state L.Searches L.lasting_searches).Answers w (fun _ _ _ => True)
      ((Pattern.ofTerm pattern).match? e.surroundings t)
      ((Pattern.ofTerm pattern').match? e'.surroundings t') :=
    Pattern.correspond_search he _ (lasting_const _) hpattern ht (L.rebound_empty N w) fun _ _ =>
      Correspondence.alike_pure _ fun _ _ => .some trivial
  refine C.alike_bind (alike_run' (lasting_const _).maybe hmatch ⟨rfl, .none⟩)
    fun w' o o' hw ho => C.alike_pure fun _ _ => ?_
  cases ho <;> rfl

omit h in
/-- In surroundings that correspond, sides that correspond rewrite subjects that do to related
results. -/
theorem correspond_rewriteWith {N : Naming} {Q : Requests W}
    (he : e.surroundings.Correspond e'.surroundings L Q (C.state L.Searches L.lasting_searches))
    {R : W → Term → Term → Prop} (hR : Rule.Placeable L R) {lhs lhs' rhs rhs' : Term}
    (hlhs : L.Renames N Q w (fun _ => False) (.ofTerm lhs) (.ofTerm lhs'))
    (hrhs : Rule.InstantiateAlike L N (C.state L.Searches L.lasting_searches) e.surroundings
      e'.surroundings w R rhs rhs')
    (hshare : ∀ {w' result result'}, w ≤ w' → R w' result result' →
      C.Alike w' R (e.share result) (e'.share result'))
    (ht : L.Like w t t') :
    C.Answers w R (e.rewriteWith lhs rhs t) (e'.rewriteWith lhs' rhs' t') := by
  have hrewrite := Rule.correspond_rewriting he hR hlhs hrhs ht
  refine C.alike_bind (alike_run' hR.toLasting.maybe hrewrite ⟨rfl, .none⟩) fun w' o o' hw ho => ?_
  cases ho with
  | none => exact answers_none
  | some hresult =>
      exact C.alike_bind (hshare hw hresult) fun _ _ _ _ hshared =>
        C.alike_pure fun _ hw => .some (hR.later hw hshared)

theorem Correspond.rewriteWith {lhs lhs' rhs rhs' : Term} (hlhs : L.Like w lhs lhs')
    (hrhs : L.Like w rhs rhs') (ht : L.Like w t t') :
    C.Answers w L.Like (e.rewriteWith lhs rhs t) (e'.rewriteWith lhs' rhs' t') :=
  correspond_rewriteWith h.surroundings (Rule.placeable_like _)
    ((Likeness.patterns_ofTerm hlhs).renames _) (Rule.instantiateAlike_all h.surroundings hrhs)
    (fun _ => h.share) ht

theorem Correspond.isMatch {pattern pattern' : Term} (ht : L.Like w t t')
    (hpattern : L.Like w pattern pattern') :
    C.Alike w (fun _ => Eq) (e.isMatch t pattern) (e'.isMatch t' pattern') :=
  correspond_isMatch h.surroundings ((Likeness.patterns_ofTerm hpattern).renames _) ht

end

/-! ## replacements -/

theorem Correspond.firstOf (h : e.Correspond e' L C seen) {rules rules' : List Rule}
    (hrules : List.Forall₂ (Rule.Corresponds L w) rules rules') (ht : L.Like w t t') :
    C.Answers w L.Like (e.firstOf rules t) (e'.firstOf rules' t') :=
  alike_findSomeM? (lasting_like _) hrules fun _ _ _ hrule =>
    Rule.correspond_applyWith hrule ht (h.rewrite hrule.lhs hrule.rhs ht)

theorem Correspond.replaceM (h : e.Correspond e' L C seen) {rules rules' : List Rule}
    (hrules : List.Forall₂ (Rule.Corresponds L w) rules rules') (ht : L.Like w t t') :
    C.Alike w L.Like (t.replaceM (e.firstOf rules)) (t'.replaceM (e'.firstOf rules')) := by
  refine C.alike_bind (h.firstOf hrules ht) fun w' o o' hw ho => C.alike_pure fun _ hw' => ?_
  cases ho with
  | none => exact L.later (hw.trans hw') ht
  | some hresult => exact L.later hw' hresult

theorem pure_rebuild {m : Type → Type} [Monad m] (i : Nat) (f head : Term) (xs args : List Term) :
    (if head.same f && (args.zip xs).all (fun a => a.1.same a.2) then pure (.node i f xs)
      else pure (.call head args) : m Term) = pure (Evaluator.rebuild (.node i f xs) head args) :=
  (apply_ite (pure : Term → m Term) _ _ _).symm

mutual

theorem Correspond.replaceAllM (h : e.Correspond e' L C seen) (hL : L.Rebuilds)
    {rules rules' : List Rule} (hrules : List.Forall₂ (Rule.Corresponds L w) rules rules') :
    ∀ {t t' : Term}, L.Like w t t' →
      C.Alike w L.Like (t.replaceAllM (e.firstOf rules)) (t'.replaceAllM (e'.firstOf rules'))
  | .node i f xs, t', ht => by
      obtain ⟨j, g, ys, rfl, hhead, hargs⟩ := Likeness.exists_node ht
      rw [Term.replaceAllM, Term.replaceAllM]
      refine C.alike_bind (h.firstOf hrules ht) fun w₁ o o' hw₁ ho => ?_
      cases ho with
      | some hresult => exact C.alike_pure fun _ hw => L.later hw hresult
      | none =>
          have hhead := C.later hw₁ (h.replaceAllM hL hrules hhead)
          refine C.alike_bind hhead fun w₂ newHead newHead' hw₂ hnewHead => ?_
          have hargs := C.later (hw₁.trans hw₂) (h.replaceAllsM hL hrules hargs)
          refine C.alike_bind hargs fun w₃ newArgs newArgs' hw₃ hnewArgs => ?_
          have hrebuild := hL (L.later ((hw₁.trans hw₂).trans hw₃) ht)
            (L.later hw₃ hnewHead) hnewArgs.1 hnewArgs.2
          rw [pure_rebuild, pure_rebuild]
          exact C.alike_pure fun _ hw => L.later hw hrebuild
  | .magic _, t', ht | .int _, t', ht | .float _, t', ht | .text _, t', ht | .symbol _, t', ht
  | .host _, t', ht => by
      have hstrip := L.strip_eq ht
      cases t' with
      | node => simp [Term.strip] at hstrip
      | _ => exact h.replaceM hrules ht

theorem Correspond.replaceAllsM (h : e.Correspond e' L C seen) (hL : L.Rebuilds)
    {rules rules' : List Rule} (hrules : List.Forall₂ (Rule.Corresponds L w) rules rules') :
    ∀ {ts ts' : List Term}, L.All w ts ts' →
      C.Alike w (L.Fill ts) (Term.replaceAllsM (e.firstOf rules) ts)
        (Term.replaceAllsM (e'.firstOf rules') ts')
  | [], _, hts => by
      cases hts
      exact C.alike_pure fun _ _ => ⟨.nil, rfl⟩
  | t :: ts, _, hts => by
      cases hts with
      | cons ht hts =>
          rw [Term.replaceAllsM, Term.replaceAllsM]
          refine C.alike_bind (h.replaceAllM hL hrules ht) fun w₁ new new' hw₁ hnew => ?_
          have hts := C.later hw₁ (h.replaceAllsM hL hrules hts)
          exact C.alike_bind hts fun w₂ _ _ hw₂ hnews => C.alike_pure fun _ hw =>
            ⟨.cons (L.later (hw₂.trans hw) hnew) (hnews.1.later hw), congrArg (· + 1) hnews.2⟩

end

theorem Correspond.replace (h : e.Correspond e' L C seen) (hL : L.Rebuilds) (everywhere : Bool)
    {rules rules' : List Rule} (hrules : List.Forall₂ (Rule.Corresponds L w) rules rules')
    (ht : L.Like w t t') :
    C.Alike w L.Like (e.replace everywhere rules t) (e'.replace everywhere rules' t') := by
  cases everywhere with
  | true => exact h.replaceAllM hL hrules ht
  | false => exact h.replaceM hrules ht

end Callees

end Termwise
