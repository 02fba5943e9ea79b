import Termwise.Eval.Define
import Termwise.Proofs.Eval.Arrangement
import Termwise.Proofs.Eval.Stages
import Termwise.Proofs.Eval.Stable
import Termwise.Proofs.Rule.Partial

/-!
# Termwise.Proofs.Rule.Place

A definition is stored where evaluation looks for it.  What a definition is stored as is
read off the left-hand side (`Pattern.target`), where evaluation looks is read off the term
that it evaluates (`Term.place?`), and the two agree for every term that the left-hand side
matches or rewrites: along the chain of heads a pattern that defines something has no
pattern syntax, so the term has the same chain (`topmost?_of_fits`).

Evaluation takes the head of a call as it was before sequences were dissolved.  That is the
head of the call it tries the rules on, unless the head is a sequence itself and is
dissolved with the arguments; then definitions for that call are not found
(`definition_missed`).
-/

namespace Termwise

/-! ## the end of the chain of heads -/

namespace Term

theorem topmost?_strip (t : Term) : t.strip.topmost? = t.topmost? := by
  cases t with
  | node _ f _ => exact topmost?_strip f
  | _ => rfl

theorem topmost?_congr {s t : Term} (h : (s == t) = true) : s.topmost? = t.topmost? := by
  rw [← topmost?_strip s, (beq_iff_strip s t).mp h, topmost?_strip]

theorem kind_congr {s t : Term} (h : (s == t) = true) : s.kind = t.kind := by
  rw [beq_iff_strip] at h
  cases s <;> cases t <;> simp_all [strip, kind]

theorem eq_symbol_of_beq {t : Term} {s : Symbol} (h : (t == .symbol s) = true) : t = .symbol s := by
  cases t with
  | symbol r => rw [show r = s by simpa [beq_def, equal] using h]
  | _ => cases h

/-- Where evaluation looks for the rules of a term: among those of a symbol for itself, for its
calls, or for calls of its calls. -/
def place? : Term → Option (Symbol × RuleCache)
  | .symbol s => some (s, .own)
  | .node _ (.symbol s) _ => some (s, .down)
  | .node _ head _ => head.topmost?.map fun s => (s, .sub)
  | _ => none

theorem place?_node_of_kind {i : Nat} {f : Term} {xs : List Term} (h : f.kind = .expr) :
    (node i f xs).place? = f.topmost?.map fun s => (s, .sub) := by
  cases f with
  | node => rfl
  | _ => cases h

end Term

namespace Pattern

variable {w : Outcomes} {s : Symbol} {b b' : Bindings}

/-- An atom among patterns is matched by equal terms only. -/
theorem eq_symbol_of_fits {t : Term} (h : (ofTerm (.symbol s)).Fits w t b b')
    (ht : t.MarkerFree) : t = .symbol s := by
  obtain ⟨hany, -⟩ := h
  rw [Term.single?_of_isMarker ht.isMarker, Option.any_some] at hany
  exact Term.eq_symbol_of_beq hany

/-- A term whose chain of heads ends in a symbol that is no pattern syntax is matched, as a pattern,
by terms of the same kind whose chain of heads ends there too. -/
theorem topmost?_of_fits (hs : s.isPatternHead = false) : ∀ {u t : Term} {b b' : Bindings},
    u.topmost? = some s → (ofTerm u).Fits w t b b' → t.MarkerFree →
      t.topmost? = some s ∧ t.kind = u.kind
  | .symbol r, t, b, b', hu, h, ht => by
      obtain rfl : r = s := Option.some.inj hu
      rw [eq_symbol_of_fits h ht]
      exact ⟨rfl, rfl⟩
  | .node i f xs, t, b, b', hu, h, ht => by
      have hread : ofTerm (.node i f xs) = call (.node i f xs) (ofTerm f) (xs.map ofTerm) := by
        obtain ⟨r, p, rfl, hform, -⟩ | hcall := ofTerm_node i f xs
        · obtain rfl : r = s := Option.some.inj hu
          rw [form?_eq_none hs] at hform
          cases hform
        · exact hcall
      rw [hread] at h
      obtain ⟨subject, hsubject, h⟩ := h
      rw [Term.single?_of_isMarker ht.isMarker] at hsubject
      obtain rfl : t = subject := Option.some.inj hsubject
      obtain ⟨-, -, -, hequal, -⟩ | ⟨-, -, -, j, g, ys, b₁, rfl, hhead, -⟩ := h
      · exact ⟨(Term.topmost?_congr hequal).symm.trans hu, (Term.kind_congr hequal).symm⟩
      · exact ⟨(topmost?_of_fits hs (u := f) hu hhead (Term.markerFree_node.mp ht).2.1).1, rfl⟩

/-! ## what a left-hand side matches -/

theorem target_unheld (p : Pattern) : p.unheld.target = p.target := by
  cases p with
  | hold p => rw [unheld, target]
  | _ => rfl

variable {f : Symbol} {cache : RuleCache} {t : Term}

/-- The call that a pattern with a target reads as is matched by calls that are looked up there. -/
theorem place?_of_fits_call {whole : Term} {head : Pattern} {args : List Pattern}
    (hread : ∃ s, Pattern.call whole head args = ofTerm s)
    (htarget : (call whole head args).target = .ok (f, cache))
    (hfits : (call whole head args).Fits w t b b') (ht : t.MarkerFree) :
    t.place? = some (f, cache) := by
  obtain ⟨u, hu⟩ := hread
  obtain ⟨rfl, i, g, xs, rfl, rfl, rfl⟩ := eq_of_ofTerm_eq_call hu.symm
  obtain ⟨subject, hsubject, h⟩ := hfits
  rw [Term.single?_of_isMarker ht.isMarker] at hsubject
  obtain rfl : t = subject := Option.some.inj hsubject
  -- either way the subject is a call whose head is matched by, or equal to, the head
  obtain ⟨j, g', ys, rfl, hhead⟩ : ∃ j g' ys, t = .node j g' ys ∧
      ((g == g') = true ∨ ∃ b b₁, (ofTerm g).Fits w g' b b₁) := by
    obtain ⟨-, -, -, hequal, -⟩ | ⟨-, -, -, j, g', ys, b₁, rfl, hfits, -⟩ := h
    · cases t with
      | node j g' ys => exact ⟨j, g', ys, rfl, .inl (Term.key_congr hequal)⟩
      | _ => cases hequal
    · exact ⟨j, g', ys, rfl, .inr ⟨_, _, hfits⟩⟩
  have hg' := (Term.markerFree_node.mp ht).2.1
  cases g with
  | symbol s =>
      cases htarget
      obtain rfl : g' = .symbol f := by
        obtain hequal | ⟨b, b₁, hfits⟩ := hhead
        · rw [Term.beq_symm] at hequal
          exact Term.eq_symbol_of_beq hequal
        · exact eq_symbol_of_fits hfits hg'
      rfl
  | node j' g'' zs =>
      have hsub : (Term.node j' g'' zs).topmost? = some f ∧ f.isPatternHead = false ∧
          cache = .sub := by
        simp only [target, Term.key] at htarget
        split at htarget
        · rename_i s hs
          split at htarget
          · cases htarget
          · rename_i hpattern
            cases htarget
            exact ⟨hs, Bool.eq_false_iff.mpr hpattern, rfl⟩
        · cases htarget
      obtain ⟨htopmost, hpattern, rfl⟩ := hsub
      have hsame : g'.topmost? = some f ∧ g'.kind = .expr := by
        obtain hequal | ⟨b, b₁, hfits⟩ := hhead
        · exact ⟨(Term.topmost?_congr hequal).symm.trans htopmost, (Term.kind_congr hequal).symm⟩
        · exact topmost?_of_fits hpattern htopmost hfits hg'
      rw [Term.place?_node_of_kind hsame.2, hsame.1]
      rfl
  | _ => cases htarget

/-- A term that a left-hand side matches is looked up where the left-hand side is stored. -/
theorem place?_of_fits : ∀ (p : Pattern), (p.Every fun q => ∃ s, q = ofTerm s) →
    p.target = .ok (f, cache) → ∀ {b b' : Bindings}, p.Fits w t b b' → t.MarkerFree →
      t.place? = some (f, cache)
  | .hold p, hp, htarget, _, _, hfits, ht => place?_of_fits p hp.2 htarget hfits ht
  | .condition p _, hp, htarget, _, _, hfits, ht => place?_of_fits p hp.2 htarget hfits.1 ht
  | .call _ _ _, hp, htarget, _, _, hfits, ht => place?_of_fits_call hp.here htarget hfits ht
  | .atom a, hp, htarget, b, b', hfits, ht => by
      cases a with
      | symbol s =>
          cases htarget
          rw [eq_symbol_of_fits hfits ht]
          rfl
      | _ => cases htarget
  | .blank _, _, htarget, _, _, _, _ | .blankSequence _, _, htarget, _, _, _, _
  | .blankNullSequence _, _, htarget, _, _, _, _ | .named _ _, _, htarget, _, _, _, _
  | .tested _ _, _, htarget, _, _, _, _ | .alternatives _, _, htarget, _, _, _, _
  | .repeated _ _ _ _, _, htarget, _, _, _, _ | .optional _ _, _, htarget, _, _, _, _
  | .longest _, _, htarget, _, _, _, _ | .shortest _, _, htarget, _, _, _, _
  | .literal _, _, htarget, _, _, _, _ | .sequence _, _, htarget, _, _, _, _
  | .except _, _, htarget, _, _, _, _ | .exceptThen _ _, _, htarget, _, _, _, _ => by
      cases htarget

end Pattern

/-! ## what a left-hand side rewrites -/

namespace Rule

variable {m : Type → Type} [Monad m] {env : Surroundings m} {o : Observation m} {w : Outcomes}
  {lhs rhs t : Term} {f : Symbol} {cache : RuleCache}

/-- A term that is rewritten, as a whole or in part, is looked up where the left-hand side is
stored. -/
theorem yields_rewrite_place (hw : env.Meets o w)
    (htarget : (Pattern.ofTerm lhs).target = .ok (f, cache)) (ht : t.MarkerFree) :
    o.Yields (rewrite env lhs rhs t) fun _ => t.place? = some (f, cache) := by
  have hread : (Pattern.ofTerm lhs).Every fun q => ∃ s, q = Pattern.ofTerm s :=
    (Pattern.every_ofTerm (r := fun _ => True) (fun _ _ _ _ => ⟨trivial, fun _ _ => trivial⟩) lhs
      trivial).imp fun _ ⟨s, _, hs⟩ => ⟨s, hs⟩
  have hwhole : o.Yields ((Pattern.ofTerm lhs).search env Term t .empty (instantiate env rhs))
      fun _ => t.place? = some (f, cache) :=
    Pattern.sound_search hw _ fun b hfits => o.gives_mono (yields_instantiate hw rhs b)
      fun _ _ _ _ => Pattern.place?_of_fits _ hread htarget hfits ht
  refine o.gives_bind hwhole fun r hr => ?_
  cases r with
  | some result => exact Observation.yields_some (hr result rfl)
  | none =>
      dsimp only
      split
      · rename_i whole head slots i g args hunheld
        refine o.gives_bind hw.attributes fun attrs hattrs => ?_
        refine iteInduction (motive := fun x => o.Yields x
          fun _ => (Term.node i (.symbol g) args).place? = some (f, cache)) (fun h => ?_)
          fun _ => Observation.yields_none
        simp only [Bool.and_eq_true, Bool.not_eq_true', List.isEmpty_eq_false_iff] at h
        obtain ⟨⟨hflat, hkey⟩, hargs⟩ := h
        -- a part is rewritten only if the left-hand side has the head of the call
        rw [← Pattern.target_unheld, hunheld, Pattern.target, Term.eq_symbol_of_beq hkey] at htarget
        cases htarget
        exact o.gives_mono (yields_applyInside hw hattrs hflat hunheld hkey hargs)
          fun _ _ _ _ => rfl
      · exact Observation.yields_none

end Rule

/-! ## where evaluation looks -/

namespace Evaluator

/-- What a call of a symbol, or of a call of it, is replaced by, the rules for its head being those
that the symbol has for a use. -/
def reduceAt (r : Evaluator) (c : ContextId) (attrs : Attributes) (s : Symbol) (cache : RuleCache)
    (call : Term) : EvalM (Option Term) :=
  let ups := upSymbols attrs call
  let locals := if cache = .down then [r.findLocalRule? c s call] else []
  let usage : CodeUsage := if cache = .down then .down else .sub
  firstResult
    (ups.map (fun u => r.findRule? c u .up call) ++ (locals ++ [r.findRule? c s cache call])
      ++ ups.map (r.runCode? c .up call) ++ [r.runCode? c usage call s])

/-- A call is tried on the rules of the symbol that its own head names. -/
theorem reduce_eq_reduceAt (r : Evaluator) (c : ContextId) (attrs : Attributes) {s : Symbol}
    {cache : RuleCache} {i : Nat} {f : Term} {xs : List Term}
    (h : (Term.node i f xs).place? = some (s, cache)) :
    r.reduce c attrs (symbol? f) (.node i f xs) = r.reduceAt c attrs s cache (.node i f xs) := by
  cases f with
  | symbol s' =>
      cases h
      rfl
  | node j g ys =>
      obtain ⟨s', hs', hpair⟩ := Option.map_eq_some_iff.mp h
      cases hpair
      simp only [reduce, reduceAt, symbol?, Term.key, hs', reduceCtorEq, if_false, List.nil_append]
  | _ => cases h

/-- The normal form of a call is a call of the same head, unless that is a sequence. -/
theorem exists_rearranged_eq (attrs : Attributes) (i : Nat) {f : Term} (xs : List Term)
    (hf : f.hasHead .sequence = false) :
    ∃ j ys, rearranged attrs (spliced attrs (.node i f xs)) = .node j f ys := by
  have hspliced : ∃ j ys, spliced attrs (.node i f xs) = .node j f ys := by
    unfold spliced Term.spliceSequences
    split
    · exact ⟨_, _, rfl⟩
    · split
      · rw [Term.items, List.flatMap_cons, hf]
        exact ⟨_, _, rfl⟩
      · exact ⟨_, _, rfl⟩
  have hflatten : ∀ j ys, ∃ j' zs, (Term.node j f ys).flatten = .node j' f zs := by
    intro j ys
    unfold Term.flatten
    split <;> exact ⟨_, _, rfl⟩
  have hsort : ∀ j ys, ∃ j' zs, (Term.node j f ys).sortArgs = .node j' f zs := by
    intro j ys
    unfold Term.sortArgs
    split <;> exact ⟨_, _, rfl⟩
  obtain ⟨j, ys, hspliced⟩ := hspliced
  obtain ⟨j', zs, hflattened⟩ := hflatten j ys
  unfold rearranged
  rw [hspliced]
  dsimp only
  split <;> split
  · rw [hflattened]
    exact hsort j' zs
  · exact hsort j ys
  · exact ⟨j', zs, hflattened⟩
  · exact ⟨j, ys, rfl⟩

/-- A normal form is what the attributes of the head make of a call. -/
theorem eq_rearranged_of_run_normalize {attrs : Attributes} {call normal : Term} {k k' : Kernel}
    (h : (normalize attrs call).run k = (.ok (.done normal), k')) :
    normal = rearranged attrs (spliced attrs call) := by
  rw [normalize_eq] at h
  dsimp only at h
  split at h
  · obtain ⟨threaded, k₁, -, h⟩ := EvalM.run_bind_eq_ok h
    cases threaded with
    | some t => cases h
    | none =>
        cases h
        rfl
  · cases h
    rfl

theorem symbol?_strip (t : Term) : symbol? t.strip = symbol? t := by
  cases t <;> rfl

/-- The term that rules are tried on once the parts of a call are evaluated: its normal form, with
all nodes named. -/
def ComesAs (attrs : Attributes) (call s : Term) : Prop :=
  ∃ k normal k', (normalize attrs call).run k = (.ok (.done normal), k') ∧ s.strip = normal.strip

/-- A term that a left-hand side matches or rewrites is looked up where the left-hand side is
stored: the symbol and the use that the term names are those of the definition; they are the ones
that a symbol without a value is tried on, and the ones that a call is tried on, whichever call it
is the normal form of, unless the head of that call is a sequence. -/
theorem place?_of_applies {r : Evaluator} {c : ContextId} {lhs s : Term} {f : Symbol}
    {cache : RuleCache} {k : Kernel} (htarget : (Pattern.ofTerm lhs).target = .ok (f, cache))
    (hs : s.MarkerFree)
    (happlies : (∃ b k', (r.match? c s lhs).run k = (.ok (some b), k')) ∨
      ∃ rhs result k', (r.rewriteWith c lhs rhs s).run k = (.ok (some result), k')) :
    s.place? = some (f, cache) ∧
      (∀ k₁ : Kernel, s.kind = .symbol → (k₁.record f).removed = false →
        k₁.localValue? c f = none → k₁.value? f = none →
        (r.evaluateSymbol c f).run k₁ = (r.findRule? c f cache s).run k₁) ∧
      ∀ attrs i head args, ComesAs attrs (.node i head args) s → head.hasHead .sequence = false →
        r.reduce c attrs (symbol? head) s = r.reduceAt c attrs f cache s := by
  have hw := meets_outcomes r c k
  have hplace : s.place? = some (f, cache) := by
    obtain ⟨b, k', hrun⟩ | ⟨rhs, result, k', hrun⟩ := happlies
    · have hread : (Pattern.ofTerm lhs).Every fun q => ∃ s, q = Pattern.ofTerm s :=
        (Pattern.every_ofTerm (r := fun _ => True) (fun _ _ _ _ => ⟨trivial, fun _ _ => trivial⟩)
          lhs trivial).imp fun _ ⟨s, _, hs⟩ => ⟨s, hs⟩
      have hyields : (SearchM.whenDone (r.Leads c k)).Yields
          ((Pattern.ofTerm lhs).match? (r.surroundings c) s) fun _ => s.place? = some (f, cache) :=
        Pattern.sound_search hw _ fun b hfits => Observation.yields_some
          (Pattern.place?_of_fits _ hread htarget hfits hs)
      obtain ⟨s', hrun⟩ := SearchM.run_run'_eq_ok hrun
      exact (hyields {} k _ s' k' .refl hrun).2 b rfl
    · obtain ⟨found, k₁, hsearch, hshare⟩ := EvalM.run_bind_eq_ok hrun
      obtain ⟨s', hsearch⟩ := SearchM.run_run'_eq_ok hsearch
      cases found with
      | none => cases hshare
      | some part =>
          exact (Rule.yields_rewrite_place hw htarget hs {} k _ s' k₁ .refl hsearch).2 part rfl
  refine ⟨hplace, fun k₁ hkind hremoved hlocal hvalue => ?_,
    fun attrs i head args hcomes hhead => ?_⟩
  · cases s with
    | symbol s =>
        cases hplace
        have hget : (get : EvalM Kernel).run k₁ = (.ok k₁, k₁) := rfl
        rw [evaluateSymbol, EvalM.run_bind_ok hget, hremoved, hlocal, hvalue]
        rfl
    | _ => cases hkind
  · obtain ⟨k₁, normal, k₂, hnormal, hstrip⟩ := hcomes
    obtain ⟨j, ys, hcall⟩ := exists_rearranged_eq attrs i args hhead
    rw [eq_rearranged_of_run_normalize hnormal, hcall] at hstrip
    cases s with
    | node i' head' args' =>
        simp only [Term.strip, Term.node.injEq] at hstrip
        rw [← symbol?_strip, ← hstrip.2.1, symbol?_strip]
        exact reduce_eq_reduceAt r c attrs hplace
    | _ => cases hstrip

/-- `HoldPattern({x_}(y_) /; True)` defines calls of calls of `List`, and `{1}(2)`, which it
matches, is tried on those rules. -/
theorem place?_of_applies_sub :
    (Pattern.ofTerm (.app .holdPattern [.app .condition
      [.call (.app .list [.app .pattern [.symbol ⟨40, "x"⟩, .app .blank []]])
        [.app .pattern [.symbol ⟨41, "y"⟩, .app .blank []]], .symbol .isTrue]])).target =
          .ok (.list, .sub) ∧
      (Term.call (.app .list [.int 1]) [.int 2]).place? = some (.list, .sub) ∧
      still.reduce ⟨0⟩ .none none (.call (.app .list [.int 1]) [.int 2]) =
        still.reduceAt ⟨0⟩ .none .list .sub (.call (.app .list [.int 1]) [.int 2]) := by
  obtain ⟨hplace, -, hreduce⟩ := @place?_of_applies still ⟨0⟩
    (.app .holdPattern [.app .condition
      [.call (.app .list [.app .pattern [.symbol ⟨40, "x"⟩, .app .blank []]])
        [.app .pattern [.symbol ⟨41, "y"⟩, .app .blank []]], .symbol .isTrue]])
    (.call (.app .list [.int 1]) [.int 2]) .list .sub newKernel
    (by rfl) (by decide) (.inl ⟨_, _, rfl⟩)
  exact ⟨by rfl, hplace, hreduce .none 0 (.app .list [.int 1]) [.int 2]
    ⟨newKernel, _, newKernel, rfl, rfl⟩ (by decide)⟩

end Evaluator

/-! ## a head that is dissolved -/

/-- The kernel after `x(1, 2) :> 7`. -/
def definedKernel : Kernel :=
  ((define ⟨0⟩ (.app ⟨38, "x"⟩ [.int 1, .int 2]) (.int 7) .delayed).run (namedKernel {})).2

/-- `x(1, 2)` is defined as 7 and gives 7, but `Sequence(x, 1)(Sequence(2))`, which comes to the
rules as `x(1, 2)`, gives `x(1, 2)`: its head was no symbol before it was dissolved, so it is tried
on the rules for calls of calls of `x`. -/
theorem definition_missed : ∃ k, Reached k .empty ∧
    (Pattern.ofTerm (.app ⟨38, "x"⟩ [.int 1, .int 2])).target = .ok (⟨38, "x"⟩, .down) ∧
    (k.rules? ⟨38, "x"⟩ .down).isSome = true ∧
    Evaluator.ComesAs .none
      (.call (.app .sequence [.symbol ⟨38, "x"⟩, .int 1]) [.app .sequence [.int 2]])
      (.app ⟨38, "x"⟩ [.int 1, .int 2]) ∧
    ∃ v k' w k'', (evaluate ⟨0⟩ (.call (.app .sequence [.symbol ⟨38, "x"⟩, .int 1])
        [.app .sequence [.int 2]])).run k = (.ok v, k') ∧ k'.messages = [] ∧
      (v == .app ⟨38, "x"⟩ [.int 1, .int 2]) = true ∧
      (evaluate ⟨0⟩ v.strip).run k' = (.ok w, k'') ∧ (w == .int 7) = true := by
  have hrun : succeedsWith (fun v k' => k'.messages.isEmpty &&
        (v == .app ⟨38, "x"⟩ [.int 1, .int 2]) &&
          succeedsWith (fun w _ => w == .int 7) ((evaluate ⟨0⟩ v.strip).run k'))
      ((evaluate ⟨0⟩ (.call (.app .sequence [.symbol ⟨38, "x"⟩, .int 1])
        [.app .sequence [.int 2]])).run definedKernel) = true := by decide +kernel
  obtain ⟨v, k', hv, hresult⟩ := exists_of_succeedsWith hrun
  simp only [Bool.and_eq_true] at hresult
  obtain ⟨⟨hmessages, hcall⟩, hagain⟩ := hresult
  obtain ⟨w, k'', hw, hseven⟩ := exists_of_succeedsWith hagain
  exact ⟨definedKernel, .kernel (.define ⟨0⟩ _ _ .delayed) (reached_namedKernel {}), rfl,
    by decide +kernel, ⟨namedKernel {}, _, namedKernel {}, rfl, rfl⟩, v, k', w, k'', hv,
    List.isEmpty_iff.mp hmessages, hcall, hw, hseven⟩

end Termwise
