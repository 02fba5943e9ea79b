import Termwise.Proofs.Term.Shows

/-!
# Termwise.Proofs.Term.Remembered

Hashing and comparing nodes.  Both fill in hashes on the way and change nothing
else (`Rehashed`), and remembered hashes are right (`Hashed`).  So the hash of a
node is the digest of its term, and two nodes are equal exactly when their terms
are: a difference in hashes is a difference in terms.
-/

namespace Termwise.Shared

open Memory Memory.Heap

variable {hasher : List Token → UInt64} {s s' s'' : Store} {owners : List Nat}

/-! ## remembered hashes -/

/-- Whether each remembered hash is the one of the term that the node shows. -/
def Hashed (hasher : List Token → UInt64) (s : Store) : Prop :=
  ∀ {id n t}, s.read id = some n → n.hash ≠ 0 → Shows s t (.node id) → n.hash = digest hasher t

/-- What a node holds besides its hash. -/
def lasting (n : Node) : List Value × Nat := (n.items, n.evaluated)

/-- Whether a store differs from another one at most in remembered hashes, which are right. -/
structure Rehashed (hasher : List Token → UInt64) (owners : List Nat) (s s' : Store) : Prop where
  counted : Counted Node.refs s' owners
  hashed : Hashed hasher s'
  same : ∀ id, (s'.read id).map lasting = (s.read id).map lasting
  free : StaysFree s s'

namespace Rehashed

theorem refl (counted : Counted Node.refs s owners) (hashed : Hashed hasher s) :
    Rehashed hasher owners s s := ⟨counted, hashed, fun _ => rfl, .refl s⟩

theorem trans (first : Rehashed hasher owners s s') (second : Rehashed hasher owners s' s'') :
    Rehashed hasher owners s s'' :=
  ⟨second.counted, second.hashed, fun id => (second.same id).trans (first.same id),
    first.free.trans second.free⟩

theorem itemsAt_eq (h : Rehashed hasher owners s s') (id : Nat) : itemsAt s' id = itemsAt s id := by
  have := congrArg (Option.map Prod.fst) (h.same id)
  simpa [itemsAt, lasting, Function.comp_def] using this

theorem shows_iff (h : Rehashed hasher owners s s') {t : Term} {v : Value} :
    Shows s' t v ↔ Shows s t v :=
  shows_congr (fun a _ => h.itemsAt_eq a) fun _ ha => Reaches.owned ha

theorem showsAll_iff (h : Rehashed hasher owners s s') {ts : List Term} {vs : List Value} :
    ShowsAll s' ts vs ↔ ShowsAll s ts vs :=
  showsAll_congr (fun a _ => h.itemsAt_eq a) fun _ ha => Reaches.owned ha

end Rehashed

/-- Remembering the hash of a node. -/
theorem exists_remember {id : Nat} {t : Term} (counted : Counted Node.refs s owners)
    (hashed : Hashed hasher s) (hshows : Shows s t (.node id)) :
    ∃ n s', s.read id = some n ∧ s.write id { n with hash := digest hasher t } = some s' ∧
      Rehashed hasher owners s s' := by
  obtain ⟨head, args, vs, rfl, hitems, -⟩ := shows_node_iff.mp hshows
  obtain ⟨n, hread, rfl⟩ := itemsAt_eq_some.mp hitems
  obtain ⟨s', hwrite, counted', hread', hfree⟩ :=
    counted.store hread (show Node.refs { n with hash := digest hasher _ } = n.refs from rfl)
  have hsame : ∀ a, (s'.read a).map lasting = (s.read a).map lasting := fun a => by
    rw [hread']
    split
    · rename_i heq
      rw [heq, hread]
      rfl
    · rfl
  have hitems : ∀ a, itemsAt s' a = itemsAt s a := fun a => by
    have := congrArg (Option.map Prod.fst) (hsame a)
    simpa [itemsAt, lasting, Function.comp_def] using this
  refine ⟨n, s', hread, hwrite, counted', fun {a m t} hm hne ht => ?_, hsame, hfree⟩
  have ht' : Shows s t (.node a) :=
    (shows_congr (fun b _ => hitems b) fun _ hb => Reaches.owned hb).mp ht
  rw [hread'] at hm
  split at hm
  · rename_i heq
    subst heq
    cases hm
    rw [eq_of_shows ht' hshows]
  · exact hashed hm hne ht'

/-! ## hashing -/

theorem contributions_items (f : Term) (xs : List Term) :
    finish hasher (contribution hasher f ++ contributions hasher xs) =
      digest hasher (.node 0 f xs) := rfl

mutual

/-- What a value puts into a structural hash is what its term does. -/
theorem exists_valueTokens : ∀ {t : Term} {limit : Nat} {s : Store} {v : Value},
    depth t ≤ limit → Counted Node.refs s owners → Hashed hasher s → Shows s t v →
    ∃ s', Store.valueTokens (Store.hashWithin hasher limit) s v = some (contribution hasher t, s') ∧
      Rehashed hasher owners s s'
  | .node i f xs, limit, s, v, hdepth, counted, hashed, hshows => by
      have hnode := hshows
      obtain ⟨rfl, id, x, vs, rfl, hitems, hf, hxs⟩ := hshows
      obtain ⟨n, hread, hn⟩ := itemsAt_eq_some.mp hitems
      cases limit with
      | zero => cases hdepth
      | succ limit =>
          rw [depth] at hdepth
          simp only [Store.valueTokens, Store.hashWithin, hread, Option.bind_eq_bind,
            Option.bind_some]
          split
          · rename_i hne
            rw [hashed hread hne hnode]
            exact ⟨s, rfl, .refl counted hashed⟩
          · obtain ⟨s₁, hhead, h₁⟩ :=
              exists_valueTokens (show depth f ≤ limit by omega) counted hashed hf
            obtain ⟨s₂, hargs, h₂⟩ := exists_tokens (show depthAll xs ≤ limit by omega)
              h₁.counted h₁.hashed (h₁.showsAll_iff.mpr hxs)
            have h₁₂ := h₁.trans h₂
            obtain ⟨n', s₃, hread', hwrite, h₃⟩ :=
              exists_remember h₁₂.counted h₁₂.hashed (h₁₂.shows_iff.mpr hnode)
            refine ⟨s₃, ?_, h₁₂.trans h₃⟩
            simp only [hn, Store.tokens, hhead, hargs, hread', hwrite, contributions_items,
              Option.bind_eq_bind, Option.bind_some]
            rfl
  | .magic _, _, s, _, _, counted, hashed, hshows | .int _, _, s, _, _, counted, hashed, hshows
  | .float _, _, s, _, _, counted, hashed, hshows | .text _, _, s, _, _, counted, hashed, hshows
  | .symbol _, _, s, _, _, counted, hashed, hshows
  | .host _, _, s, _, _, counted, hashed, hshows => by
      obtain ⟨isAtom, rfl⟩ := hshows
      exact ⟨s, rfl, .refl counted hashed⟩

theorem exists_tokens : ∀ {ts : List Term} {limit : Nat} {s : Store} {vs : List Value},
    depthAll ts ≤ limit → Counted Node.refs s owners → Hashed hasher s → ShowsAll s ts vs →
    ∃ s', Store.tokens (Store.hashWithin hasher limit) s vs = some (contributions hasher ts, s') ∧
      Rehashed hasher owners s s'
  | [], _, s, _, _, counted, hashed, hshows => by
      cases hshows
      exact ⟨s, rfl, .refl counted hashed⟩
  | t :: ts, limit, s, vs, hdepth, counted, hashed, hshows => by
      rw [depthAll] at hdepth
      obtain ⟨x, xs, rfl, ht, hts⟩ := hshows
      obtain ⟨s₁, hfirst, h₁⟩ :=
        exists_valueTokens (show depth t ≤ limit by omega) counted hashed ht
      obtain ⟨s₂, hrest, h₂⟩ := exists_tokens (show depthAll ts ≤ limit by omega) h₁.counted
        h₁.hashed (h₁.showsAll_iff.mpr hts)
      refine ⟨s₂, ?_, h₁.trans h₂⟩
      simp only [Store.tokens, hfirst, hrest, Option.bind_eq_bind, Option.bind_some]
      rfl

end

/-- The hash of a node is the one of its term. -/
theorem exists_hash {id : Nat} {t : Term} (counted : Counted Node.refs s owners)
    (hashed : Hashed hasher s) (hshows : Shows s t (.node id)) :
    ∃ s', s.hash hasher id = some (digest hasher t, s') ∧ Rehashed hasher owners s s' := by
  -- the limit is the number of nodes, and calls are not nested more deeply
  obtain ⟨s', htokens, hrehashed⟩ := exists_valueTokens (depth_le hshows) counted hashed hshows
  obtain ⟨⟨w, s₁⟩, hhash, heq⟩ := Option.bind_eq_some_iff.mp htokens
  obtain ⟨head, args, vs, rfl, -⟩ := shows_node_iff.mp hshows
  cases heq
  exact ⟨s', hhash, hrehashed⟩

/-! ## comparing -/

/-- Calls are equal when their heads and their arguments are. -/
theorem beq_node (i j : Nat) (f g : Term) (xs ys : List Term) :
    (Term.node i f xs == Term.node j g ys) = (f == g && Term.equalAll xs ys) := by
  rw [Term.beq_def, Term.equal, Term.beq_def]

theorem length_eq_of_equalAll : ∀ {ts us : List Term}, Term.equalAll ts us = true →
    ts.length = us.length
  | [], [], _ => rfl
  | t :: ts, u :: us, h => by
      simp only [Term.equalAll, Bool.and_eq_true] at h
      rw [List.length_cons, List.length_cons, length_eq_of_equalAll h.2]

/-- Comparing items one after the other. -/
theorem exists_equalItems_cons {equal : Store → Nat → Nat → Option (Bool × Store)} {x y : Value}
    {vs ws : List Value} {p q : Bool}
    (hfirst : ∃ s₁, Store.equalValue equal s x y = some (p, s₁) ∧ Rehashed hasher owners s s₁)
    (hrest : ∀ {s₁}, Rehashed hasher owners s s₁ →
      ∃ s₂, Store.equalItems equal s₁ vs ws = some (q, s₂) ∧ Rehashed hasher owners s₁ s₂) :
    ∃ s', Store.equalItems equal s (x :: vs) (y :: ws) = some (p && q, s') ∧
      Rehashed hasher owners s s' := by
  obtain ⟨s₁, hfirst, h₁⟩ := hfirst
  simp only [Store.equalItems, hfirst, Option.bind_eq_bind, Option.bind_some]
  cases p with
  | false => exact ⟨s₁, rfl, h₁⟩
  | true =>
      obtain ⟨s₂, hrest, h₂⟩ := hrest h₁
      exact ⟨s₂, by rw [if_pos rfl, hrest, Bool.true_and], h₁.trans h₂⟩

/-- Comparing nodes, given how their items compare: when they have different lengths or hashes their
terms are different. -/
theorem exists_equalWithin {limit a b : Nat} {f g : Term} {xs ys : List Term} {vs ws : List Value}
    (counted : Counted Node.refs s owners) (hashed : Hashed hasher s)
    (ht : Shows s (.call f xs) (.node a)) (hu : Shows s (.call g ys) (.node b))
    (hvs : itemsAt s a = some vs) (hws : itemsAt s b = some ws)
    (hcompare : ∀ {s₁}, Rehashed hasher owners s s₁ →
      ∃ s₂, Store.equalItems (Store.equalWithin hasher limit) s₁ vs ws =
        some (f == g && Term.equalAll xs ys, s₂) ∧ Rehashed hasher owners s₁ s₂) :
    ∃ s', Store.equalWithin hasher (limit + 1) s a b = some (Term.call f xs == Term.call g ys, s') ∧
      Rehashed hasher owners s s' := by
  obtain ⟨m, hread, rfl⟩ := itemsAt_eq_some.mp hvs
  obtain ⟨n, hread', rfl⟩ := itemsAt_eq_some.mp hws
  rw [Store.equalWithin]
  split
  · rename_i heq
    subst heq
    rw [eq_of_shows hu ht, beq_self_eq_true]
    exact ⟨s, rfl, .refl counted hashed⟩
  simp only [hread, hread', Option.bind_eq_bind, Option.bind_some]
  split
  · rename_i hne
    have hdiffer : (Term.call f xs == Term.call g ys) = false := by
      rw [Term.call, Term.call, beq_node, Bool.and_eq_false_iff]
      refine .inr (Bool.eq_false_iff.mpr fun hargs => hne ?_)
      have hlength := length_items ht hvs
      have hlength' := length_items hu hws
      have := length_eq_of_equalAll hargs
      omega
    rw [hdiffer]
    exact ⟨s, rfl, .refl counted hashed⟩
  obtain ⟨s₁, hhash, h₁⟩ := exists_hash counted hashed ht
  obtain ⟨s₂, hhash', h₂⟩ := exists_hash h₁.counted h₁.hashed (h₁.shows_iff.mpr hu)
  simp only [hhash, hhash', Option.bind_some]
  split
  · rename_i hne
    have hdiffer : (Term.call f xs == Term.call g ys) = false :=
      Bool.eq_false_iff.mpr fun hsame => hne (digest_eq_of_equal hasher hsame)
    rw [hdiffer]
    exact ⟨s₂, rfl, h₁.trans h₂⟩
  · obtain ⟨s₃, hitems, h₃⟩ := hcompare (h₁.trans h₂)
    exact ⟨s₃, hitems, (h₁.trans h₂).trans h₃⟩

mutual

/-- Values are equal when their terms are. -/
theorem exists_equalValue : ∀ {t u : Term} {limit : Nat} {s : Store} {v w : Value},
    depth t ≤ limit → Counted Node.refs s owners → Hashed hasher s → Shows s t v → Shows s u w →
    ∃ s', Store.equalValue (Store.equalWithin hasher limit) s v w = some (t == u, s') ∧
      Rehashed hasher owners s s'
  | .node i f xs, u, limit, s, v, w, hdepth, counted, hashed, ht, hu => by
      have hnode := ht
      obtain ⟨rfl, a, x, vs, rfl, hitems, hf, hxs⟩ := ht
      cases w with
      | atom u' isAtom =>
          obtain rfl := shows_atom_iff.mp hu
          refine ⟨s, ?_, .refl counted hashed⟩
          cases u with
          | node => exact absurd rfl isAtom
          | _ => rfl
      | node b =>
          have hnode' := hu
          obtain ⟨g, ys, ws, rfl, hitems', hall⟩ := shows_node_iff.mp hu
          cases limit with
          | zero => cases hdepth
          | succ limit =>
              rw [depth] at hdepth
              refine exists_equalWithin counted hashed hnode hnode' hitems hitems' fun h₁ => ?_
              cases hall with
              | cons hg hys =>
                  exact exists_equalItems_cons
                    (exists_equalValue (by omega) h₁.counted h₁.hashed (h₁.shows_iff.mpr hf)
                      (h₁.shows_iff.mpr hg))
                    fun h₂ => exists_equalItems (by omega) h₂.counted h₂.hashed
                      ((h₁.trans h₂).showsAll_iff.mpr hxs)
                      ((h₁.trans h₂).showsAll_iff.mpr (showsAll_iff.mpr hys))
  | .magic _, u, _, s, v, w, hdepth, counted, hashed, ht, hu
  | .int _, u, _, s, v, w, hdepth, counted, hashed, ht, hu
  | .float _, u, _, s, v, w, hdepth, counted, hashed, ht, hu
  | .text _, u, _, s, v, w, hdepth, counted, hashed, ht, hu
  | .symbol _, u, _, s, v, w, hdepth, counted, hashed, ht, hu
  | .host _, u, _, s, v, w, hdepth, counted, hashed, ht, hu => by
      obtain ⟨isAtom, rfl⟩ := ht
      cases w with
      | atom u' isAtom' =>
          rw [shows_atom_iff.mp hu]
          exact ⟨s, rfl, .refl counted hashed⟩
      | node b =>
          obtain ⟨head, args, ws, rfl, -⟩ := shows_node_iff.mp hu
          exact ⟨s, rfl, .refl counted hashed⟩

theorem exists_equalItems : ∀ {ts us : List Term} {limit : Nat} {s : Store} {vs ws : List Value},
    depthAll ts ≤ limit → Counted Node.refs s owners → Hashed hasher s → ShowsAll s ts vs →
    ShowsAll s us ws →
    ∃ s', Store.equalItems (Store.equalWithin hasher limit) s vs ws =
        some (Term.equalAll ts us, s') ∧ Rehashed hasher owners s s'
  | [], us, _, s, vs, ws, _, counted, hashed, hts, hus => by
      cases hts
      cases us with
      | nil =>
          cases hus
          exact ⟨s, rfl, .refl counted hashed⟩
      | cons u us =>
          obtain ⟨y, ys, rfl, -⟩ := hus
          exact ⟨s, rfl, .refl counted hashed⟩
  | t :: ts, us, limit, s, vs, ws, hdepth, counted, hashed, hts, hus => by
      rw [depthAll] at hdepth
      obtain ⟨x, xs, rfl, ht, hts⟩ := hts
      cases us with
      | nil =>
          cases hus
          exact ⟨s, rfl, .refl counted hashed⟩
      | cons u us =>
          obtain ⟨y, ys, rfl, hu, hus⟩ := hus
          exact exists_equalItems_cons (exists_equalValue (by omega) counted hashed ht hu)
            fun h₁ => exists_equalItems (by omega) h₁.counted h₁.hashed
              (h₁.showsAll_iff.mpr hts) (h₁.showsAll_iff.mpr hus)

end

/-- Nodes are equal exactly when their terms are. -/
theorem exists_equal {a b : Nat} {t u : Term} (counted : Counted Node.refs s owners)
    (hashed : Hashed hasher s) (ht : Shows s t (.node a)) (hu : Shows s u (.node b)) :
    ∃ s', s.equal hasher a b = some (t == u, s') ∧ Rehashed hasher owners s s' :=
  exists_equalValue (depth_le ht) counted hashed ht hu

end Termwise.Shared
