import Termwise.Proofs.Pattern.Observation
import Termwise.Proofs.Pattern.Renaming
import Termwise.Proofs.Term.Ordinary
import Termwise.Rule.Basic

/-!
# Termwise.Proofs.Rule.Dispatch

Rules that cannot apply to a subject, whatever evaluation does: one whose dispatch key is
another one than that of the subject (`gives_none_rewrite_of_dispatchKey`), and one
whose left-hand side is literal and not equal to the subject
(`gives_none_rewrite_of_isLiteral`).  Such a rule is refused before anything is evaluated,
so all that counts are the step counter and the attributes that the search sees.

The dispatch key has to be the one under these attributes.  A key made earlier may be a
term that has ceased to be literal, and is then matched by terms not equal to it.
-/

namespace Termwise

/-- A call of a flat head is not literal. -/
theorem Term.isLiteral_node_of_flat {attrs : Symbol → Attributes} {i : Nat} {g : Term} {f : Symbol}
    {xs : List Term} (hg : (g == .symbol f) = true) (hflat : (attrs f).has .flat = true) :
    (node i g xs).isLiteral attrs = false := by
  cases g with
  | symbol s =>
      obtain rfl : s = f := by simpa [beq_def, equal] using hg
      simp [isLiteral, Symbol.opensMatch, hflat]
  | _ => cases hg

theorem Term.key_congr {s t : Term} (h : (s == t) = true) : (s.key == t.key) = true := by
  rw [beq_iff_strip] at *
  cases s <;> cases t <;> simp_all [strip, key]

theorem Term.single?_of_isMarker {t : Term} (h : t.isMarker = false) : t.single? = some t := by
  simp [single?, h]

namespace Pattern

variable {m : Type → Type} [Monad m] {o : Observation m} {env : Surroundings m}
  {attrs : Symbol → Attributes} {ρ : Type}

section

variable (htick : o.Gives env.tick fun _ => True) (hattrs : o.Gives env.attributes (· = attrs))

include htick

theorem gives_guard_false {c : Bool} {k : m (Option ρ)} (hc : c = false) :
    o.Gives (do env.tick; guardM c k) (· = none) := by
  subst hc
  exact o.gives_bind htick fun _ _ => o.gives_pure rfl

include hattrs

/-- A literal term is matched by equal terms only. -/
theorem gives_none_of_isLiteral {u t : Term} (hu : u.isLiteral attrs = true)
    (ht : t.isMarker = false) (hne : (u == t) = false) (b : Bindings)
    (k : Bindings → m (Option ρ)) : o.Gives ((ofTerm u).search env ρ t b k) (· = none) := by
  cases u with
  | node i f xs =>
      rw [Term.ofTerm_node_of_isLiteral hu, search]
      refine o.gives_bind htick fun _ _ => ?_
      rw [Term.single?_of_isMarker ht]
      refine o.gives_bind hattrs fun a ha => ?_
      subst ha
      rw [if_pos hu, hne]
      exact o.gives_pure rfl
  | _ =>
      simp only [ofTerm, search]
      refine gives_guard_false htick ?_
      rw [Term.single?_of_isMarker ht, Option.any_some, Term.beq_symm, hne]

/-- A pattern with a dispatch key matches terms with that key only. -/
theorem gives_none_of_dispatchKey {key t : Term} (ht : t.isMarker = false)
    (hkey : t.key.isMarker = false) (hne : (key == t.key) = false) :
    ∀ (p : Pattern), (p.Every fun q => ∃ s, q = ofTerm s) → p.dispatchKey attrs = some key →
      ∀ (b : Bindings) (k : Bindings → m (Option ρ)), o.Gives (p.search env ρ t b k) (· = none)
  | .hold p, hp, hd, b, k => by
      rw [search]
      exact o.gives_bind htick fun _ _ => gives_none_of_dispatchKey ht hkey hne p hp.2 hd b k
  | .condition p test, hp, hd, b, k => by
      rw [search]
      exact o.gives_bind htick fun _ _ => gives_none_of_dispatchKey ht hkey hne p hp.2 hd b _
  | .named name p, hp, hd, b, k => by
      rw [search]
      refine o.gives_bind htick fun _ _ => ?_
      split
      · rename_i value _
        cases hvalue : value == t with
        | true => exact gives_none_of_dispatchKey ht hkey hne p hp.2 hd b k
        | false => exact o.gives_pure rfl
      · exact gives_none_of_dispatchKey ht hkey hne p hp.2 hd _ k
  | .literal x, _, hd, b, k => by
      cases hd
      rw [search]
      refine gives_guard_false htick ?_
      rw [Term.single?_of_isMarker ht, Option.any_some, Bool.eq_false_iff]
      intro heq
      rw [Term.beq_symm, Term.key_congr heq] at hne
      cases hne
  | .atom a, hp, hd, b, k => by
      obtain rfl : a = key := Option.some.inj hd
      obtain ⟨s, hs⟩ := hp.here
      obtain ⟨-, hnode⟩ := eq_of_ofTerm_eq_atom hs.symm
      have hakey : a.key = a := by
        cases a with
        | node i f xs => exact absurd rfl (hnode i f xs)
        | _ => rfl
      rw [search]
      refine gives_guard_false htick ?_
      rw [Term.single?_of_isMarker ht, Option.any_some, Bool.eq_false_iff]
      intro heq
      have hkeys := Term.key_congr heq
      rw [hakey, Term.beq_symm, hne] at hkeys
      cases hkeys
  | .call whole head args, hp, hd, b, k => by
      obtain ⟨s, hs⟩ := hp.here
      obtain ⟨rfl, i, f, xs, rfl, rfl, rfl⟩ := eq_of_ofTerm_eq_call hs.symm
      have hf : f.isLiteral attrs = true ∧ f = key := by
        rw [dispatchKey] at hd
        split at hd
        · rename_i hf
          exact ⟨hf, Option.some.inj hd⟩
        · cases hd
      obtain ⟨hf, rfl⟩ := hf
      rw [search]
      refine o.gives_bind htick fun _ _ => ?_
      rw [Term.single?_of_isMarker ht]
      refine o.gives_bind hattrs fun a ha => ?_
      subst ha
      cases hwhole : (Term.node i f xs).isLiteral a with
      | true =>
          rw [if_pos rfl]
          cases heq : Term.node i f xs == t with
          | true =>
              have hkeys : (f == t.key) = true := Term.key_congr heq
              rw [hne] at hkeys
              cases hkeys
          | false => exact o.gives_pure rfl
      | false =>
          rw [if_neg Bool.false_ne_true]
          cases t with
          | node j g ys => exact gives_none_of_isLiteral htick hattrs hf hkey hne _ _
          | _ => exact o.gives_pure rfl
  | .blank _, _, hd, _, _ | .blankSequence _, _, hd, _, _ | .blankNullSequence _, _, hd, _, _
  | .tested _ _, _, hd, _, _ | .alternatives _, _, hd, _, _ | .repeated _ _ _ _, _, hd, _, _
  | .optional _ _, _, hd, _, _ | .longest _, _, hd, _, _ | .shortest _, _, hd, _, _
  | .sequence _, _, hd, _, _ | .except _, _, hd, _, _ | .exceptThen _ _, _, hd, _, _ => by
      cases hd

end

end Pattern

namespace Rule

variable {m : Type → Type} [Monad m] {o : Observation m} {env : Surroundings m}
  {attrs : Symbol → Attributes} {lhs rhs subject : Term}

/-- A subject is not rewritten when the search finds nothing and its head is not flat, or not that of
the left-hand side. -/
theorem gives_none_rewrite (hattrs : o.Gives env.attributes (· = attrs))
    (hsearch : ∀ k, o.Gives ((Pattern.ofTerm lhs).search env Term subject .empty k) (· = none))
    (hpart : ∀ whole head slots i f args, (Pattern.ofTerm lhs).unheld = .call whole head slots →
      subject = .node i (.symbol f) args → (attrs f).has .flat = true →
        (whole.key == .symbol f) = false) :
    o.Gives (rewrite env lhs rhs subject) (· = none) := by
  refine o.gives_bind (hsearch _) fun r hr => ?_
  subst hr
  dsimp only
  split
  · rename_i whole head slots i f args hunheld
    refine o.gives_bind hattrs fun a ha => ?_
    subst ha
    cases hflat : (a f).has .flat with
    | true =>
        rw [hpart whole head slots i f args hunheld rfl hflat]
        exact o.gives_pure rfl
    | false => exact o.gives_pure rfl
  · exact o.gives_pure rfl

/-- A rule with another dispatch key than the subject does not apply. -/
theorem gives_none_rewrite_of_dispatchKey (htick : o.Gives env.tick fun _ => True)
    (hattrs : o.Gives env.attributes (· = attrs)) {key : Term}
    (hd : (Pattern.ofTerm lhs).dispatchKey attrs = some key) (hne : (key == subject.key) = false)
    (hsubject : subject.isMarker = false) (hkey : subject.key.isMarker = false) :
    o.Gives (rewrite env lhs rhs subject) (· = none) := by
  have hread := Pattern.every_ofTerm (r := fun _ => True)
    (fun _ _ _ _ => ⟨trivial, fun _ _ => trivial⟩) lhs trivial
  refine gives_none_rewrite hattrs (fun k => ?_) fun whole head slots i f args hunheld hs _ => ?_
  · exact Pattern.gives_none_of_dispatchKey htick hattrs hsubject hkey hne _
      (hread.imp fun _ ⟨s, _, hs⟩ => ⟨s, hs⟩) hd .empty k
  · subst hs
    have hcall : (Pattern.call whole head slots).dispatchKey attrs = some key := by
      cases hp : Pattern.ofTerm lhs with
      | hold p =>
          rw [hp] at hunheld hd
          obtain rfl : p = .call whole head slots := hunheld
          exact hd
      | _ =>
          rw [hp] at hunheld hd
          rw [← hunheld]
          exact hd
    rw [Pattern.dispatchKey] at hcall
    split at hcall
    · cases hcall
      exact hne
    · cases hcall

/-- A rule with a literal left-hand side applies to equal subjects only. -/
theorem gives_none_rewrite_of_isLiteral (htick : o.Gives env.tick fun _ => True)
    (hattrs : o.Gives env.attributes (· = attrs)) (hlhs : lhs.isLiteral attrs = true)
    (hne : (lhs == subject) = false) (hsubject : subject.isMarker = false) :
    o.Gives (rewrite env lhs rhs subject) (· = none) := by
  refine gives_none_rewrite hattrs
    (Pattern.gives_none_of_isLiteral htick hattrs hlhs hsubject hne .empty)
    fun whole head slots i f args hunheld hs hflat => ?_
  cases lhs with
  | node j g xs =>
      rw [Term.ofTerm_node_of_isLiteral hlhs] at hunheld
      cases hunheld
      rw [Bool.eq_false_iff]
      intro hg
      have hopen : (Term.node j g xs).isLiteral attrs = false :=
        Term.isLiteral_node_of_flat hg hflat
      rw [hopen] at hlhs
      cases hlhs
  | _ => cases hunheld

end Rule

end Termwise
