import Termwise.Pattern.Basic

/-!
# Termwise.Proofs.Pattern.Every

Conditions on all forms that a pattern is made of, and where the forms of a pattern
come from when it is read off a term:

* `every_iff` — a condition holds all over a pattern when it holds of the pattern and all over its
  children;
* `every_ofTerm` — every form inside a pattern is read off a part of the term.
-/

namespace Termwise.Pattern

/-! ## all forms of a pattern -/

mutual

/-- Whether a condition holds of a pattern and of every pattern inside it. -/
def Every (q : Pattern → Prop) : Pattern → Prop
  | blank type => q (blank type)
  | blankSequence type => q (blankSequence type)
  | blankNullSequence type => q (blankNullSequence type)
  | named name p => q (named name p) ∧ p.Every q
  | condition p test => q (condition p test) ∧ p.Every q
  | tested p f => q (tested p f) ∧ p.Every q
  | alternatives choices => q (alternatives choices) ∧ AllEvery q choices
  | repeated p bounds least most => q (repeated p bounds least most) ∧ p.Every q
  | optional p default => q (optional p default) ∧ p.Every q
  | hold p => q (hold p) ∧ p.Every q
  | longest p => q (longest p) ∧ p.Every q
  | shortest p => q (shortest p) ∧ p.Every q
  | literal value => q (literal value)
  | sequence parts => q (sequence parts) ∧ AllEvery q parts
  | except no => q (except no) ∧ no.Every q
  | exceptThen no p => q (exceptThen no p) ∧ no.Every q ∧ p.Every q
  | call whole head args => q (call whole head args) ∧ head.Every q ∧ AllEvery q args
  | atom value => q (atom value)

/-- Whether a condition holds of several patterns and of every pattern inside them. -/
def AllEvery (q : Pattern → Prop) : List Pattern → Prop
  | [] => True
  | p :: ps => p.Every q ∧ AllEvery q ps

end

mutual

/-- Conditions that can be decided can be decided all over a pattern. -/
instance decidableEvery {q : Pattern → Prop} [DecidablePred q] : ∀ p, Decidable (Every q p)
  | blank type => inferInstanceAs (Decidable (q (blank type)))
  | blankSequence type => inferInstanceAs (Decidable (q (blankSequence type)))
  | blankNullSequence type => inferInstanceAs (Decidable (q (blankNullSequence type)))
  | literal a => inferInstanceAs (Decidable (q (literal a)))
  | atom a => inferInstanceAs (Decidable (q (atom a)))
  | named x p => @instDecidableAnd (q (named x p)) _ _ (decidableEvery p)
  | condition p test => @instDecidableAnd (q (condition p test)) _ _ (decidableEvery p)
  | tested p f => @instDecidableAnd (q (tested p f)) _ _ (decidableEvery p)
  | repeated p r m n => @instDecidableAnd (q (repeated p r m n)) _ _ (decidableEvery p)
  | optional p d => @instDecidableAnd (q (optional p d)) _ _ (decidableEvery p)
  | hold p => @instDecidableAnd (q (hold p)) _ _ (decidableEvery p)
  | longest p => @instDecidableAnd (q (longest p)) _ _ (decidableEvery p)
  | shortest p => @instDecidableAnd (q (shortest p)) _ _ (decidableEvery p)
  | except p => @instDecidableAnd (q (except p)) _ _ (decidableEvery p)
  | alternatives ps => @instDecidableAnd (q (alternatives ps)) _ _ (decidableAllEvery ps)
  | sequence ps => @instDecidableAnd (q (sequence ps)) _ _ (decidableAllEvery ps)
  | exceptThen no p =>
    @instDecidableAnd (q (exceptThen no p)) _ _
      (@instDecidableAnd _ _ (decidableEvery no) (decidableEvery p))
  | call t head args =>
    @instDecidableAnd (q (call t head args)) _ _
      (@instDecidableAnd _ _ (decidableEvery head) (decidableAllEvery args))

instance decidableAllEvery {q : Pattern → Prop} [DecidablePred q] : ∀ ps, Decidable (AllEvery q ps)
  | [] => inferInstanceAs (Decidable True)
  | p :: ps => @instDecidableAnd _ _ (decidableEvery p) (decidableAllEvery ps)

end

mutual

theorem Every.imp {q r : Pattern → Prop} (h : ∀ p, q p → r p) :
    ∀ {p : Pattern}, p.Every q → p.Every r
  | blank _, hp | blankSequence _, hp | blankNullSequence _, hp | literal _, hp | atom _, hp =>
      h _ hp
  | named _ _, hp | condition _ _, hp | tested _ _, hp | repeated _ _ _ _, hp | optional _ _, hp
  | hold _, hp | longest _, hp | shortest _, hp | except _, hp => ⟨h _ hp.1, hp.2.imp h⟩
  | alternatives _, hp | sequence _, hp => ⟨h _ hp.1, hp.2.imp h⟩
  | exceptThen _ _, hp => ⟨h _ hp.1, hp.2.1.imp h, hp.2.2.imp h⟩
  | call _ _ _, hp => ⟨h _ hp.1, hp.2.1.imp h, hp.2.2.imp h⟩

theorem AllEvery.imp {q r : Pattern → Prop} (h : ∀ p, q p → r p) :
    ∀ {ps : List Pattern}, AllEvery q ps → AllEvery r ps
  | [], _ => trivial
  | _ :: _, hp => ⟨hp.1.imp h, hp.2.imp h⟩

end

mutual

theorem Every.and {q r : Pattern → Prop} :
    ∀ {p : Pattern}, p.Every q → p.Every r → p.Every fun p => q p ∧ r p
  | blank _, hq, hr | blankSequence _, hq, hr | blankNullSequence _, hq, hr | literal _, hq, hr
  | atom _, hq, hr => ⟨hq, hr⟩
  | named _ _, hq, hr | condition _ _, hq, hr | tested _ _, hq, hr | repeated _ _ _ _, hq, hr
  | optional _ _, hq, hr | hold _, hq, hr | longest _, hq, hr | shortest _, hq, hr
  | except _, hq, hr => ⟨⟨hq.1, hr.1⟩, hq.2.and hr.2⟩
  | alternatives _, hq, hr | sequence _, hq, hr => ⟨⟨hq.1, hr.1⟩, hq.2.and hr.2⟩
  | exceptThen _ _, hq, hr => ⟨⟨hq.1, hr.1⟩, hq.2.1.and hr.2.1, hq.2.2.and hr.2.2⟩
  | call _ _ _, hq, hr => ⟨⟨hq.1, hr.1⟩, hq.2.1.and hr.2.1, hq.2.2.and hr.2.2⟩

theorem AllEvery.and {q r : Pattern → Prop} :
    ∀ {ps : List Pattern}, AllEvery q ps → AllEvery r ps → AllEvery (fun p => q p ∧ r p) ps
  | [], _, _ => trivial
  | _ :: _, hq, hr => ⟨hq.1.and hr.1, hq.2.and hr.2⟩

end

theorem allEvery_iff {q : Pattern → Prop} {ps : List Pattern} :
    AllEvery q ps ↔ ∀ p ∈ ps, p.Every q := by
  induction ps with
  | nil => simp [AllEvery]
  | cons p ps ih => simp [AllEvery, ih]

/-- The patterns right inside a pattern. -/
def children : Pattern → List Pattern
  | blank _ | blankSequence _ | blankNullSequence _ | literal _ | atom _ => []
  | named _ p | condition p _ | tested p _ | repeated p _ _ _ | optional p _ | hold p | longest p
  | shortest p | except p => [p]
  | alternatives ps | sequence ps => ps
  | exceptThen no p => [no, p]
  | call _ head args => head :: args

theorem every_iff {q : Pattern → Prop} (p : Pattern) :
    p.Every q ↔ q p ∧ ∀ c ∈ p.children, c.Every q := by
  cases p <;> simp [Every, children, allEvery_iff]

theorem Every.here {q : Pattern → Prop} {p : Pattern} (h : p.Every q) : q p :=
  ((every_iff p).mp h).1

/-! ## patterns read off terms -/

theorem ofTerms_eq_map (ts : List Term) : ofTerms ts = ts.map ofTerm := by
  induction ts with
  | nil => rfl
  | cons t ts ih => rw [ofTerms, ih, List.map_cons]

/-- Pattern syntax is made of the patterns that its arguments read as, and is matched as a call or an
atom by no form. -/
theorem form?_eq_some {s : Symbol} {args : List Term} {read : List Pattern} {p : Pattern}
    (h : form? s args read = some p) :
    (∀ c ∈ p.children, c ∈ read) ∧ (∀ whole head ps, p ≠ call whole head ps) ∧
      ∀ a, p ≠ atom a := by
  revert h
  unfold form?
  repeat'
    refine iteInduction (motive := fun x => x = some p → (∀ c ∈ p.children, c ∈ read) ∧
      (∀ whole head ps, p ≠ call whole head ps) ∧ ∀ a, p ≠ atom a) (fun _ => ?_) fun _ => ?_
  all_goals
    try split
    all_goals
      intro h
      first
      | cases h
      | obtain ⟨_, -, rfl⟩ := Option.map_eq_some_iff.mp h
  all_goals simp [children]

/-- Calls of other symbols are no pattern syntax. -/
theorem form?_eq_none {s : Symbol} (h : s.isPatternHead = false) (args : List Term)
    (read : List Pattern) : form? s args read = none := by
  simp only [Symbol.isPatternHead, Symbol.patternHeads, List.contains_eq_mem, List.mem_cons,
    List.not_mem_nil, or_false, decide_eq_false_iff_not, not_or] at h
  unfold form?
  simp only [h, if_false]

/-- A call reads as pattern syntax, or is matched part by part. -/
theorem ofTerm_node (i : Nat) (f : Term) (xs : List Term) :
    (∃ s p, f = .symbol s ∧ form? s xs (xs.map ofTerm) = some p ∧ ofTerm (.node i f xs) = p) ∨
      ofTerm (.node i f xs) = call (.node i f xs) (ofTerm f) (xs.map ofTerm) := by
  rw [← ofTerms_eq_map]
  cases f with
  | symbol s =>
      cases hform : form? s xs (ofTerms xs) with
      | some p => exact .inl ⟨s, p, rfl, hform, by simp only [ofTerm, hform, Option.getD_some]⟩
      | none => exact .inr (by simp only [ofTerm, hform, Option.getD_none])
  | _ => exact .inr rfl

/-- A call among patterns keeps the term it was read off, and is made of what its parts read as. -/
theorem eq_of_ofTerm_eq_call {t whole : Term} {head : Pattern} {ps : List Pattern}
    (h : ofTerm t = call whole head ps) :
    t = whole ∧ ∃ i f xs, t = .node i f xs ∧ head = ofTerm f ∧ ps = xs.map ofTerm := by
  cases t with
  | node i f xs =>
      obtain ⟨s, p, -, hform, hp⟩ | hcall := ofTerm_node i f xs
      · exact absurd (hp.symm.trans h) ((form?_eq_some hform).2.1 _ _ _)
      · rw [h] at hcall
        obtain ⟨hwhole, hhead, hps⟩ := call.inj hcall
        exact ⟨hwhole.symm, i, f, xs, rfl, hhead, hps⟩
  | _ => cases h

/-- An atom among patterns is the term it was read off, and no call. -/
theorem eq_of_ofTerm_eq_atom {t a : Term} (h : ofTerm t = atom a) :
    t = a ∧ ∀ i f xs, a ≠ .node i f xs := by
  cases t with
  | node i f xs =>
      obtain ⟨s, p, -, hform, hp⟩ | hcall := ofTerm_node i f xs
      · exact absurd (hp.symm.trans h) ((form?_eq_some hform).2.2 _)
      · cases hcall.symm.trans h
  | _ =>
      cases h
      exact ⟨rfl, nofun⟩

/-- Every form inside a pattern is read off a part of the term; so it has whatever properties of
terms parts inherit. -/
theorem every_ofTerm {r : Term → Prop}
    (hr : ∀ i f xs, r (.node i f xs) → r f ∧ ∀ x ∈ xs, r x) :
    ∀ t : Term, r t → (ofTerm t).Every fun p => ∃ s, r s ∧ p = ofTerm s
  | .node i f xs, h => by
      obtain ⟨hf, hxs⟩ := hr i f xs h
      have hread : ∀ c ∈ xs.map ofTerm, c.Every fun p => ∃ s, r s ∧ p = ofTerm s := by
        intro c hc
        obtain ⟨x, hx, rfl⟩ := List.mem_map.mp hc
        exact every_ofTerm hr x (hxs x hx)
      refine (every_iff _).mpr ⟨⟨_, h, rfl⟩, fun c hc => ?_⟩
      obtain ⟨s, p, -, hform, hp⟩ | hcall := ofTerm_node i f xs
      · rw [hp] at hc
        exact hread c ((form?_eq_some hform).1 c hc)
      · rw [hcall, children, List.mem_cons] at hc
        obtain rfl | hc := hc
        · exact every_ofTerm hr f hf
        · exact hread c hc
  | .magic _, h | .int _, h | .float _, h | .text _, h | .symbol _, h | .host _, h =>
      ⟨_, h, rfl⟩

end Termwise.Pattern
