import Termwise.Proofs.Kernel.Plain
import Termwise.Proofs.Pattern.Correspondence
import Termwise.Rule.Replace

/-!
# Termwise.Proofs.Rule.Correspondence

Rewriting in two runs.  With sides that correspond, subjects that correspond are rewritten
to terms that correspond, and a list of rules gives corresponding results in both runs if
its sides correspond to themselves.
-/

namespace Termwise

open Correspondence

variable {W : Type} [Preorder W] {m n : Type → Type} [Monad m] [Monad n] {L : Likeness W}
  {N : Naming} {Q : Requests W} {C : Correspondence W m n} {env : Surroundings m}
  {env' : Surroundings n} {w : W}

/-! ## parts of a call -/

theorem Pattern.free_takeWhile {free free' : List (Term × Nat)} (h : Pattern.Free L w free free')
    (positions : List Nat) :
    Pattern.Free L w (free.takeWhile fun a => positions.contains a.2)
      (free'.takeWhile fun a => positions.contains a.2) := by
  induction h with
  | nil => exact .nil
  | cons ha _ ih =>
      rw [List.takeWhile_cons, List.takeWhile_cons, ha.2]
      split
      · exact .cons ha ih
      · exact .nil

theorem Pattern.free_filter {free free' : List (Term × Nat)} (h : Pattern.Free L w free free')
    (positions : List Nat) :
    Pattern.Free L w (free.filter fun a => positions.contains a.2)
      (free'.filter fun a => positions.contains a.2) := by
  induction h with
  | nil => exact .nil
  | cons ha _ ih =>
      rw [List.filter_cons, List.filter_cons, ha.2]
      split
      · exact .cons ha ih
      · exact ih

namespace Rule

variable {f f' result result' : Term} {args args' : List Term}

theorem like_spliceRange (hf : L.Like w f f') (hargs : L.All w args args')
    (hresult : L.Like w result result') (start rest : Nat) :
    L.Like w (spliceRange f args start rest result) (spliceRange f' args' start rest result') := by
  unfold spliceRange
  rw [hargs.length_eq]
  split
  · exact hresult
  · exact L.call hf ((hargs.take _).append (.cons hresult (hargs.drop _)))

theorem like_spliceFree (hf : L.Like w f f') (hargs : L.All w args args')
    (hresult : L.Like w result result') (free : List Nat) :
    L.Like w (spliceFree f args free result) (spliceFree f' args' free result') := by
  unfold spliceFree
  split
  · exact hresult
  · have hzip := Pattern.free_zipIdx hargs 0
    have hbefore := Pattern.free_takeWhile hzip free
    dsimp only
    rw [hbefore.length_eq, hargs.length_eq]
    have hafter := Pattern.free_filter
      (List.forall₂_drop (args'.zipIdx.takeWhile fun a => free.contains a.2).length hzip) free
    refine L.call hf ((hbefore.map_fst.append ?_).append (Pattern.Free.map_fst hafter))
    split
    · exact .cons hresult .nil
    · exact .nil

/-! ## rewriting -/

/-- A right-hand side without its test, under the bindings of a match. -/
def finish (b : Bindings) (body : Term) : Term :=
  let value := body.substitute b
  if value.isMarker then .app .sequence value.args else value

theorem like_finish {b b' : Bindings} {body body' : Term} (hb : L.Bound w b b')
    (h : L.Like w body body') : L.Like w (finish b body) (finish b' body') := by
  have hvalue := Likeness.like_substitute hb h
  unfold finish
  dsimp only
  rw [Likeness.isMarker_eq hvalue]
  split
  · exact Likeness.app .sequence (Likeness.all_args hvalue)
  · exact hvalue

theorem isConditional_of_ne {rhs : Term} (hne : ∀ i s x y, rhs ≠ .node i (.symbol s) [x, y]) :
    isConditional rhs = false := by
  unfold isConditional
  split
  · exact absurd rfl (hne _ _ _ _)
  · rfl

theorem instantiate_of_not_conditional {rhs : Term} (h : isConditional rhs = false)
    (b : Bindings) : instantiate env rhs b = pure (some (finish b rhs)) := by
  unfold instantiate
  dsimp only
  split
  · rw [isConditional, beq_eq_false_iff_ne] at h
    rw [if_neg h]
    rfl
  · rfl

/-- Calls of a symbol on two arguments correspond to such calls only. -/
theorem binary_or {t t' : Term} (h : L.Like w t t') :
    (∃ i j s x y x' y', t = .node i (.symbol s) [x, y] ∧ t' = .node j (.symbol s) [x', y'] ∧
      L.Like w x x' ∧ L.Like w y y') ∨
    ((∀ i s x y, t ≠ .node i (.symbol s) [x, y]) ∧ ∀ i s x y, t' ≠ .node i (.symbol s) [x, y]) := by
  cases t with
  | node i f xs =>
      obtain ⟨j, g, ys, rfl, hhead, hargs⟩ := Likeness.exists_node h
      rcases Likeness.symbol_or hhead with ⟨s, rfl, rfl⟩ | ⟨hne, hne'⟩
      · rcases hargs with _ | ⟨hx, _ | ⟨hy, _ | ⟨hz, hrest⟩⟩⟩
        case cons.cons.nil => exact .inl ⟨i, j, s, _, _, _, _, rfl, rfl, hx, hy⟩
        all_goals exact .inr ⟨nofun, nofun⟩
      · refine .inr ⟨?_, ?_⟩
        · rintro _ s _ _ ⟨⟩
          exact hne s rfl
        · rintro _ s _ _ ⟨⟩
          exact hne' s rfl
  | _ =>
      have hstrip := L.strip_eq h
      cases t' with
      | node => simp [Term.strip] at hstrip
      | _ => exact .inr ⟨nofun, nofun⟩

theorem correspond_instantiate (he : env.Correspond env' L Q C) {rhs rhs' : Term}
    {b b' : Bindings} (hrhs : L.Like w rhs rhs') (hb : L.Bound w b b')
    (hask : ∀ {i j body test body' test'}, rhs = .node i (.symbol .condition) [body, test] →
      rhs' = .node j (.symbol .condition) [body', test'] →
      Q.Tests w (test.substitute b) (test'.substitute b')) :
    C.Answers w L.Like (instantiate env rhs b) (instantiate env' rhs' b') := by
  have hfinish : ∀ {body body'}, L.Like w body body' →
      C.Answers w L.Like (pure (some (finish b body))) (pure (some (finish b' body'))) := fun h =>
    C.alike_pure fun _ hw => .some (L.later hw (like_finish hb h))
  rcases binary_or hrhs with ⟨i, j, s, body, test, body', test', rfl, rfl, hbody, -⟩ | ⟨hne, hne'⟩
  · unfold instantiate
    dsimp only
    split
    · rename_i hs
      subst hs
      refine alike_read (Pattern.correspond_holds he (hask rfl rfl)) fun holds => ?_
      split
      · exact hfinish hbody
      · exact answers_none
    · exact hfinish hrhs
  · rw [instantiate_of_not_conditional (isConditional_of_ne hne),
      instantiate_of_not_conditional (isConditional_of_ne hne')]
    exact hfinish hrhs

/-- A relation between results that lasts, and holds on when they are put in the place of parts of
corresponding calls. -/
structure Placeable (L : Likeness W) (R : W → Term → Term → Prop) : Prop extends Lasting R where
  range : ∀ {w f f' args args' result result'}, L.Like w f f' → L.All w args args' →
    R w result result' → ∀ start rest : Nat,
      R w (spliceRange f args start rest result) (spliceRange f' args' start rest result')
  free : ∀ {w f f' args args' result result'}, L.Like w f f' → L.All w args args' →
    R w result result' → ∀ free : List Nat,
      R w (spliceFree f args free result) (spliceFree f' args' free result')

theorem placeable_like (L : Likeness W) : Placeable L L.Like where
  later := L.later
  range := like_spliceRange
  free := like_spliceFree

/-- That there are results at all is a relation between them. -/
theorem placeable_true : Placeable L fun _ _ _ => True where
  later _ _ := trivial
  range _ _ _ _ _ := trivial
  free _ _ _ _ := trivial

/-- Right-hand sides make related results under bindings that correspond. -/
def InstantiateAlike (L : Likeness W) (N : Naming) (C : Correspondence W m n) (env : Surroundings m)
    (env' : Surroundings n) (w : W) (R : W → Term → Term → Prop) (rhs rhs' : Term) : Prop :=
  ∀ {w' : W} {b b' : Bindings}, w ≤ w' → L.Rebound N w' (fun _ => False) b b' →
    C.Answers w' R (instantiate env rhs b) (instantiate env' rhs' b')

theorem instantiateAlike_all (he : env.Correspond env' L (.all L) C) {rhs rhs' : Term}
    (h : L.Like w rhs rhs') : InstantiateAlike L .self C env env' w L.Like rhs rhs' :=
  fun hw hb => by
    have h := L.later hw h
    refine correspond_instantiate he h hb.entries fun hrhs hrhs' => ?_
    subst hrhs hrhs'
    obtain ⟨-, htests⟩ := List.forall₂_cons.mp (L.args h)
    exact Likeness.like_substitute hb.entries (List.forall₂_cons.mp htests).1

/-- What a right-hand side makes, put in its place. -/
theorem correspond_instantiate_map {R : W → Term → Term → Prop} (hR : Placeable L R)
    {rhs rhs' : Term} {b b' : Bindings} {put put' : Term → Term}
    (h : C.Answers w R (instantiate env rhs b) (instantiate env' rhs' b'))
    (hput : ∀ {w' result result'}, w ≤ w' → R w' result result' →
      R w' (put result) (put' result')) :
    C.Answers w R (do return (← instantiate env rhs b).map put)
      (do return (← instantiate env' rhs' b').map put') := by
  refine C.alike_bind h fun w' r r' hw hr => ?_
  refine C.alike_pure fun w'' hw' => ?_
  cases hr with
  | none => exact .none
  | some hresult => exact .some (hput (hw.trans hw') (hR.later hw' hresult))

theorem correspond_applyInside (he : env.Correspond env' L Q C) {R : W → Term → Term → Prop}
    (hR : Placeable L R) {rhs rhs' f f' : Term} {head head' : Pattern}
    {slots slots' : List Pattern} {args args' : List Term}
    (hhead : L.Renames N Q w (fun _ => False) head head')
    (hslots : L.RenamesSlots N Q w (head.After fun _ => False) slots slots')
    (hrhs : InstantiateAlike L N C env env' w R rhs rhs') (orderless : Bool) (hf : L.Like w f f')
    (hargs : L.All w args args') :
    C.Answers w R (applyInside env head slots rhs orderless f args)
      (applyInside env' head' slots' rhs' orderless f' args') := by
  have hlasting := hR.toLasting
  unfold applyInside
  split
  · refine Pattern.correspond_search he head hlasting hhead hf (L.rebound_empty N w) fun hw hb => ?_
    have hfree := Pattern.Free.later (Pattern.free_zipIdx hargs 0) hw
    have hf := L.later hw hf
    rw [hslots.length_eq]
    refine Pattern.correspond_searchAnywhere he slots hlasting (hslots.later hw) (.some hf) hf hfree
      hb fun hw' hb hleft => ?_
    have hw := hw.trans hw'
    rw [Pattern.Free.map_snd hleft]
    refine correspond_instantiate_map hR (hrhs hw (hb.forget fun _ _ h => h.elim))
      fun hw'' hresult => ?_
    exact hR.free (L.later (hw'.trans hw'') hf) (hargs.later (hw.trans hw'')) hresult _
  · rw [hargs.length_eq]
    refine alike_findSomeM?_same hlasting fun start _ => ?_
    refine Pattern.correspond_search he head hlasting hhead hf (L.rebound_empty N w) fun hw hb => ?_
    have hrest := (hargs.drop start).later hw
    have hf := L.later hw hf
    rw [hslots.length_eq]
    refine Pattern.correspond_searchSlots he slots hlasting (hslots.later hw) (.some hf) hf hrest
      hb fun hw' hb hleft => ?_
    have hw := hw.trans hw'
    rw [hleft.length_eq]
    refine correspond_instantiate_map hR (hrhs hw (hb.forget fun _ _ h => h.elim))
      fun hw'' hresult => ?_
    exact hR.range (L.later (hw'.trans hw'') hf) (hargs.later (hw.trans hw'')) hresult _ _

/-- Left-hand sides that correspond up to their names rewrite alike, to related results. -/
theorem correspond_rewriting (he : env.Correspond env' L Q C) {R : W → Term → Term → Prop}
    (hR : Placeable L R) {lhs lhs' rhs rhs' subject subject' : Term}
    (hlhs : L.Renames N Q w (fun _ => False) (.ofTerm lhs) (.ofTerm lhs'))
    (hrhs : InstantiateAlike L N C env env' w R rhs rhs') (h : L.Like w subject subject') :
    C.Answers w R (rewrite env lhs rhs subject) (rewrite env' lhs' rhs' subject') := by
  refine C.alike_bind (Pattern.correspond_search he _ hR.toLasting hlhs h (L.rebound_empty N w)
    fun hw hb => hrhs hw (hb.forget fun _ _ h => h.elim)) fun w' r r' hw hr => ?_
  cases hr with
  | some hresult => exact C.alike_pure fun _ hw' => .some (hR.later hw' hresult)
  | none =>
      have hunheld := hlhs.unheld.later hw
      have h := L.later hw h
      dsimp only
      generalize (Pattern.ofTerm lhs).unheld = p, (Pattern.ofTerm lhs').unheld = p' at hunheld
      cases hunheld with
      | call hwhole hkey hbinds hhead hslots =>
          cases subject with
          | node i f args =>
              obtain ⟨j, g, args', rfl, hf, hargs⟩ := Likeness.exists_node h
              rcases Likeness.symbol_or hf with ⟨s, rfl, rfl⟩ | ⟨hne, hne'⟩
              · refine alike_read (he.attributes w') fun attrs => ?_
                rw [hkey.beq_symbol, Pattern.isEmpty_congr hargs]
                split
                · exact correspond_applyInside he hR hhead hslots
                    (fun hw' => hrhs (hw.trans hw')) _ hf hargs
                · exact answers_none
              · split
                · rename_i hsubject
                  cases hsubject
                  exact absurd rfl (hne _)
                · split
                  · rename_i hsubject
                    cases hsubject
                    exact absurd rfl (hne' _)
                  · exact answers_none
          | _ =>
              have hstrip := L.strip_eq h
              cases subject' with
              | node => simp [Term.strip] at hstrip
              | _ => exact answers_none
      | _ => exact answers_none

/-- Rules of two runs with sides that correspond. -/
structure Corresponds (L : Likeness W) (w : W) (r r' : Rule) : Prop where
  literal : r.literal = r'.literal
  lhs : L.Like w r.lhs r'.lhs
  rhs : L.Like w r.rhs r'.rhs

theorem isConditional_eq {t t' : Term} (h : L.Like w t t') :
    isConditional t = isConditional t' := by
  rcases binary_or h with ⟨i, j, s, x, y, x', y', rfl, rfl, -, -⟩ | ⟨hne, hne'⟩
  · rfl
  · rw [isConditional_of_ne hne, isConditional_of_ne hne']

theorem corresponds_make (attrs : Symbol → Attributes) {lhs lhs' rhs rhs' : Term}
    (hlhs : L.Like w lhs lhs') (hrhs : L.Like w rhs rhs') (kind : RuleKind) :
    (make attrs lhs rhs kind).Corresponds L w (make attrs lhs' rhs' kind) where
  literal := by
    have hliteral : lhs.isLiteral attrs = lhs'.isLiteral attrs :=
      Likeness.congr_strip (q := fun t => t.isLiteral attrs) (fun t => Term.isLiteral_strip t) hlhs
    simp only [make, isConditional_eq hrhs, hliteral]
  lhs := hlhs
  rhs := hrhs

/-- Terms that correspond stand for rules that do. -/
theorem rel_ofTerm? (attrs : Symbol → Attributes) {t t' : Term} (h : L.Like w t t') :
    Option.Rel (Corresponds L w) (ofTerm? attrs t) (ofTerm? attrs t') := by
  rcases binary_or h with ⟨i, j, s, x, y, x', y', rfl, rfl, hx, hy⟩ | ⟨hne, hne'⟩
  · dsimp only [ofTerm?]
    refine Likeness.rel_ite (.some (corresponds_make attrs hx hy .immediate)) ?_
    exact Likeness.rel_ite (.some (corresponds_make attrs hx hy .delayed)) .none
  · unfold ofTerm?
    split
    · exact absurd rfl (hne _ _ _ _)
    · exact .none

theorem rel_mapM_ofTerm? (attrs : Symbol → Attributes) {ts ts' : List Term}
    (h : L.All w ts ts') :
    Option.Rel (List.Forall₂ (Corresponds L w)) (ts.mapM (ofTerm? attrs))
      (ts'.mapM (ofTerm? attrs)) := by
  induction h with
  | nil => exact .some .nil
  | @cons t t' ts ts' ht _ ih =>
      have hrule := rel_ofTerm? attrs ht
      rw [List.mapM_cons, List.mapM_cons]
      generalize ofTerm? attrs t = o, ofTerm? attrs t' = o' at hrule
      generalize ts.mapM (ofTerm? attrs) = os, ts'.mapM (ofTerm? attrs) = os' at ih
      cases hrule with
      | none => exact .none
      | some hrule =>
          cases ih with
          | none => exact .none
          | some hrules => exact .some (.cons hrule hrules)

theorem correspond_applyWith {rewrite : Term → Term → Term → m (Option Term)}
    {rewrite' : Term → Term → Term → n (Option Term)} {r r' : Rule} {subject subject' : Term}
    (hr : r.Corresponds L w r') (h : L.Like w subject subject')
    (hrewrite : C.Answers w L.Like (rewrite r.lhs r.rhs subject)
      (rewrite' r'.lhs r'.rhs subject')) :
    C.Answers w L.Like (r.applyWith rewrite subject) (r'.applyWith rewrite' subject') := by
  unfold applyWith
  rw [hr.literal]
  split
  · refine C.alike_pure fun _ hw => ?_
    rw [Likeness.beq_congr hr.lhs h]
    split
    · exact .some (L.later hw hr.rhs)
    · exact .none
  · exact hrewrite

end Rule

/-! ## rule lists -/

namespace RuleList

/-- The sides of all rules that a lookup may try correspond to themselves. -/
def Settled (L : Likeness W) (w : W) (l : RuleList) : Prop :=
  l.All fun lhs rhs => L.Like w lhs lhs ∧ L.Like w rhs rhs

variable {l : RuleList} {subject subject' : Term}

theorem Settled.later {w' : W} (h : l.Settled L w) (hw : w ≤ w') : l.Settled L w' where
  rules r hr := ⟨L.later hw (h.rules r hr).1, L.later hw (h.rules r hr).2⟩
  demoted t ht r hr := ⟨L.later hw (h.demoted t ht r hr).1, L.later hw (h.demoted t ht r hr).2⟩

theorem constant?_congr (h : subject.strip = subject'.strip) :
    l.constant? subject = l.constant? subject' := by
  have hfit : (fun r : Rule => r.lhs == subject) = fun r : Rule => r.lhs == subject' :=
    funext fun r => Term.beq_congr rfl h
  rw [constant?, constant?, hfit]

theorem candidates_congr (h : subject.strip = subject'.strip) :
    l.candidates subject = l.candidates subject' := by
  have hkey : subject.key.strip = subject'.key.strip := by
    cases subject <;> cases subject' <;> simp_all [Term.strip, Term.key]
  unfold candidates DispatchTable.candidates
  have hfit : ∀ key : Term, (key == subject.key) = (key == subject'.key) := fun key =>
    Term.beq_congr rfl hkey
  simp only [hfit]

theorem ready_congr (attrs : Symbol → Attributes) (epoch : Nat)
    (h : subject.strip = subject'.strip) :
    l.ready attrs epoch subject = l.ready attrs epoch subject' := by
  rw [ready, ready, needsTable, needsTable, constant?_congr h]

/-- Looking subjects up that correspond, where the rules that may be tried do. -/
theorem correspond_find? {apply : Rule → m (Option Term)} {apply' : Rule → n (Option Term)}
    (hl : l.Settled L w) (h : L.Like w subject subject')
    (happly : ∀ r : Rule, r.Corresponds L w r → C.Answers w L.Like (apply r) (apply' r)) :
    C.Answers w L.Like (l.find? apply subject) (l.find? apply' subject') := by
  have hstrip := L.strip_eq h
  unfold find?
  rw [← constant?_congr hstrip, ← candidates_congr hstrip]
  split
  · rename_i rhs hconstant
    obtain ⟨r, hr, rfl⟩ := Option.map_eq_some_iff.mp hconstant
    have hmem : r ∈ l.rules := List.mem_append_left _ (List.mem_of_find?_eq_some hr)
    exact C.alike_pure fun _ hw => .some (L.later hw (hl.rules r hmem).2)
  · refine alike_findSomeM?_same (lasting_like L) fun r hr => ?_
    have hsides := All.candidates hl hr
    exact happly r ⟨rfl, hsides.1, hsides.2⟩

end RuleList

end Termwise
