import Termwise.Proofs.Number.Rank
import Termwise.Proofs.Term.Strip

/-!
# Termwise.Proofs.Term.Order

The order of terms is a total order that agrees with structural equality:

* `compare_swap` — comparing the other way round gives the opposite;
* `chain_compare` — comparisons are transitive;
* `compare_eq_iff` — exactly equal terms compare as equal;
* `compare_totalOrder` — all of it, and that hashes never tell equal terms apart.

Numbers are the one place where different kinds of terms interleave.  They go by a
key of three parts (`numberKey`): the rank of the nearest floating-point number,
integers before floating-point numbers, and the integer itself.
-/

namespace Termwise

/-! ## chains of comparisons -/

/-- The outcomes of comparing `a` with `b`, `b` with `c` and `a` with `c` in a transitive order. -/
structure Chain (p q r : Ordering) : Prop where
  lt_lt : p = .lt → q = .lt → r = .lt
  lt_eq : p = .lt → q = .eq → r = .lt
  eq_lt : p = .eq → q = .lt → r = .lt
  eq_eq : p = .eq → q = .eq → r = .eq

namespace Chain

variable {p q r p' q' r' : Ordering}

/-- A second comparison counts only where the first one finds no difference. -/
theorem andThen (h : Chain p q r) (h' : p = .eq → q = .eq → Chain p' q' r') :
    Chain (p.then p') (q.then q') (r.then r') := by
  have heq : p = .eq → q = .eq → r = .eq ∧ Chain p' q' r' := fun hp hq =>
    ⟨h.eq_eq hp hq, h' hp hq⟩
  constructor <;> simp only [Ordering.then_eq_lt, Ordering.then_eq_eq]
  · rintro (hp | ⟨hp, hp'⟩) (hq | ⟨hq, hq'⟩)
    · exact .inl (h.lt_lt hp hq)
    · exact .inl (h.lt_eq hp hq)
    · exact .inl (h.eq_lt hp hq)
    · exact .inr ⟨(heq hp hq).1, (heq hp hq).2.lt_lt hp' hq'⟩
  · rintro (hp | ⟨hp, hp'⟩) ⟨hq, hq'⟩
    · exact .inl (h.lt_eq hp hq)
    · exact .inr ⟨(heq hp hq).1, (heq hp hq).2.lt_eq hp' hq'⟩
  · rintro ⟨hp, hp'⟩ (hq | ⟨hq, hq'⟩)
    · exact .inl (h.eq_lt hp hq)
    · exact .inr ⟨(heq hp hq).1, (heq hp hq).2.eq_lt hp' hq'⟩
  · rintro ⟨hp, hp'⟩ ⟨hq, hq'⟩
    exact ⟨(heq hp hq).1, (heq hp hq).2.eq_eq hp' hq'⟩

theorem of_compare {α : Type} [Ord α] [Std.TransOrd α] (a b c : α) :
    Chain (Ord.compare a b) (Ord.compare b c) (Ord.compare a c) where
  lt_lt := Std.TransCmp.lt_trans
  lt_eq := Std.TransCmp.lt_of_lt_of_eq
  eq_lt := Std.TransCmp.lt_of_eq_of_lt
  eq_eq := Std.TransCmp.eq_trans

/-- Where nothing comes after, nothing comes after in two steps. -/
theorem ne_gt (h : Chain p q r) (hp : p ≠ .gt) (hq : q ≠ .gt) : r ≠ .gt := by
  cases p with
  | lt =>
      cases q with
      | lt => simp [h.lt_lt rfl rfl]
      | eq => simp [h.lt_eq rfl rfl]
      | gt => exact absurd rfl hq
  | eq =>
      cases q with
      | lt => simp [h.eq_lt rfl rfl]
      | eq => simp [h.eq_eq rfl rfl]
      | gt => exact absurd rfl hq
  | gt => exact absurd rfl hp

end Chain

/-! ## atoms -/

namespace Text.Units

theorem compare_swap (a b : List UInt16) : compare a b = (compare b a).swap := by
  induction a generalizing b with
  | nil => cases b <;> rfl
  | cons x xs ih =>
      cases b with
      | nil => rfl
      | cons y ys =>
          rw [compare, compare, Ordering.swap_then, ← ih ys, ← Std.OrientedOrd.eq_swap]

theorem chain_compare (a b c : List UInt16) : Chain (compare a b) (compare b c) (compare a c) := by
  induction a generalizing b c with
  | nil =>
      cases b <;> cases c <;> constructor <;> simp [compare]
  | cons x xs ih =>
      cases b with
      | nil => cases c <;> constructor <;> simp [compare]
      | cons y ys =>
          cases c with
          | nil => constructor <;> simp [compare]
          | cons z zs => exact (Chain.of_compare x y z).andThen fun _ _ => ih ys zs

theorem compare_eq_iff (a b : List UInt16) : compare a b = .eq ↔ a = b := by
  induction a generalizing b with
  | nil => cases b <;> simp [compare]
  | cons x xs ih =>
      cases b with
      | nil => simp [compare]
      | cons y ys => simp [compare, Ordering.then_eq_eq, ih ys]

end Text.Units

namespace Symbol

theorem compare_swap (a b : Symbol) : compare a b = (compare b a).swap := by
  rw [compare, compare, Ordering.swap_then, ← Std.OrientedOrd.eq_swap, ← Std.OrientedOrd.eq_swap]

theorem chain_compare (a b c : Symbol) : Chain (compare a b) (compare b c) (compare a c) :=
  (Chain.of_compare a.name b.name c.name).andThen fun _ _ => Chain.of_compare a.id b.id c.id

theorem compare_eq_iff (a b : Symbol) : compare a b = .eq ↔ a = b := by
  cases a
  cases b
  simp [compare, Ordering.then_eq_eq, and_comm]

end Symbol

namespace HostObject

theorem compare_swap (a b : HostObject) : compare a b = (compare b a).swap := by
  rw [compare, compare, Ordering.swap_then, ← Std.OrientedOrd.eq_swap, ← Std.OrientedOrd.eq_swap]

theorem chain_compare (a b c : HostObject) : Chain (compare a b) (compare b c) (compare a c) :=
  (Chain.of_compare a.kind b.kind c.kind).andThen fun _ _ =>
    Chain.of_compare a.number b.number c.number

theorem compare_eq_iff (a b : HostObject) :
    compare a b = .eq ↔ a.kind = b.kind ∧ a.number = b.number := by
  simp [compare, Ordering.then_eq_eq]

end HostObject

namespace Term

/-! ## numbers -/

/-- What numbers go by: the rank of the nearest floating-point number, integers before
floating-point numbers, and the integer itself. -/
def numberKey : Term → Int × Nat × Int
  | .int n => ((nearest n).rank, 0, n.toInt)
  | .float x => (x.rank, 1, 0)
  | _ => (0, 0, 0)

/-- The order of keys, part by part. -/
def compareKeys (p q : Int × Nat × Int) : Ordering :=
  (Ord.compare p.1 q.1).then ((Ord.compare p.2.1 q.2.1).then (Ord.compare p.2.2 q.2.2))

theorem compareKeys_swap (p q : Int × Nat × Int) : compareKeys p q = (compareKeys q p).swap := by
  simp only [compareKeys, Ordering.swap_then, ← Std.OrientedOrd.eq_swap]

theorem chain_compareKeys (p q r : Int × Nat × Int) :
    Chain (compareKeys p q) (compareKeys q r) (compareKeys p r) :=
  (Chain.of_compare _ _ _).andThen fun _ _ =>
    (Chain.of_compare _ _ _).andThen fun _ _ => Chain.of_compare _ _ _

theorem compareKeys_eq_iff (p q : Int × Nat × Int) : compareKeys p q = .eq ↔ p = q := by
  simp [compareKeys, Ordering.then_eq_eq, Prod.ext_iff]

/-- The key of a smaller integer comes first. -/
theorem compareKeys_int_of_lt {m n : Int64} (h : m.toInt < n.toInt) :
    compareKeys (numberKey (.int m)) (numberKey (.int n)) = .lt := by
  have hrank : (nearest m).rank ≤ (nearest n).rank := Double.rank_ofInt_le (Int.le_of_lt h)
  have hlast : Ord.compare m.toInt n.toInt = .lt := Int.compare_eq_lt.mpr h
  simp only [compareKeys, numberKey, Std.ReflOrd.compare_self, Ordering.eq_then, hlast]
  obtain hlt | heq := Int.lt_or_eq_of_le hrank
  · rw [Int.compare_eq_lt.mpr hlt]
    rfl
  · rw [heq, Std.ReflOrd.compare_self]
    rfl

/-- Rounding integers to floating-point numbers does not change how their keys compare. -/
theorem compare_int (m n : Int64) :
    Ord.compare m n = compareKeys (numberKey (.int m)) (numberKey (.int n)) := by
  have hlt : ∀ {m n : Int64}, m.toInt < n.toInt → Ord.compare m n = .lt := fun h =>
    compareOfLessAndEq_eq_lt.mpr (Int64.lt_iff_toInt_lt.mpr h)
  obtain h | h | h := Int.lt_trichotomy m.toInt n.toInt
  · rw [hlt h, compareKeys_int_of_lt h]
  · obtain rfl := Int64.toInt_inj.mp h
    rw [Std.ReflOrd.compare_self, (compareKeys_eq_iff _ _).mpr rfl]
  · rw [Std.OrientedOrd.eq_swap, hlt h, compareKeys_swap, compareKeys_int_of_lt h]

/-- Numbers compare as their keys do. -/
theorem compare_number {a b : Term} (ha : a.isNumber = true) (hb : b.isNumber = true) :
    compare a b = compareKeys a.numberKey b.numberKey := by
  cases a <;> cases b <;> simp [isNumber, kind] at ha hb
  case int.int m n => exact compare_int m n
  case int.float m x => rfl
  case float.int x n =>
    change (Ordering.then _ Ordering.lt).swap = Ordering.then _ Ordering.gt
    rw [Ordering.swap_then, Double.compare, ← Std.OrientedOrd.eq_swap]
    rfl
  case float.float x y =>
    change x.compare y = Ordering.then _ Ordering.eq
    rw [Ordering.then_eq]
    rfl

/-- Only equal numbers have equal keys. -/
theorem numberKey_eq_iff {a b : Term} (ha : a.isNumber = true) (hb : b.isNumber = true) :
    a.numberKey = b.numberKey ↔ a.strip = b.strip := by
  cases a <;> cases b <;> simp [isNumber, kind] at ha hb <;> simp only [numberKey, strip]
  case int.int m n =>
    constructor
    · intro h
      rw [Int64.toInt_inj.mp (congrArg (fun key => key.2.2) h)]
    · intro h
      rw [int.inj h]
  case float.float x y =>
    constructor
    · intro h
      rw [Double.rank_inj (congrArg Prod.fst h)]
    · intro h
      rw [float.inj h]
  all_goals simp

/-! ## terms -/

theorem isNumber_of_rank {a : Term} (h : a.kind.rank = 1) : a.isNumber = true := by
  cases a <;> first | rfl | simp [kind, Kind.rank] at h

/-- Terms of different ranks compare as their ranks do. -/
theorem compare_rank_then (a b : Term) :
    (Ord.compare a.kind.rank b.kind.rank).then (compare a b) = compare a b := by
  cases a <;> cases b <;> rfl

mutual

/-- Comparing the other way round gives the opposite. -/
theorem compare_swap : ∀ a b : Term, compare a b = (compare b a).swap
  | .node i f xs, b => by
      cases b with
      | node j g ys =>
          rw [compare, compare, Ordering.swap_then, Ordering.swap_then, ← compare_swap f g,
            ← compareAll_swap xs ys, ← Std.OrientedOrd.eq_swap]
      | _ => rfl
  | .magic m, b => by
      cases b with
      | magic n => exact Std.OrientedOrd.eq_swap
      | _ => rfl
  | .int m, b | .float m, b => by
      cases b with
      | int n | float n => rw [compare_number rfl rfl, compare_number rfl rfl, compareKeys_swap]
      | _ => rfl
  | .text s, b => by
      cases b with
      | text r => exact Text.Units.compare_swap _ _
      | _ => rfl
  | .symbol s, b => by
      cases b with
      | symbol r => exact Symbol.compare_swap s r
      | _ => rfl
  | .host o, b => by
      cases b with
      | host h => exact HostObject.compare_swap o h
      | _ => rfl

theorem compareAll_swap : ∀ as bs : List Term, compareAll as bs = (compareAll bs as).swap
  | [], bs => by cases bs <;> rfl
  | a :: as, bs => by
      cases bs with
      | nil => rfl
      | cons b bs =>
          rw [compareAll, compareAll, Ordering.swap_then, ← compare_swap a b,
            ← compareAll_swap as bs]

end

mutual

/-- Exactly equal terms compare as equal. -/
theorem compare_eq_iff : ∀ a b : Term, compare a b = .eq ↔ a.strip = b.strip
  | .node i f xs, b => by
      cases b with
      | node j g ys =>
          have hlength : stripAll xs = stripAll ys → xs.length = ys.length := by
            intro h
            simpa [stripAll_eq_map] using congrArg List.length h
          simp only [compare, strip, Ordering.then_eq_eq, compare_eq_iff f g,
            compareAll_eq_iff xs ys, Nat.compare_eq_eq, node.injEq, true_and]
          exact ⟨fun h => h.2, fun h => ⟨hlength h.2, h⟩⟩
      | _ => simp [compare, strip, kind, Kind.rank]
  | .magic m, b => by
      cases b with
      | magic n => cases m <;> cases n <;> simp [compare, strip, Magic.index]
      | _ => simp [compare, strip, kind, Kind.rank]
  | .int m, b | .float m, b => by
      cases b with
      | int n | float n =>
          rw [compare_number rfl rfl, compareKeys_eq_iff]
          exact numberKey_eq_iff rfl rfl
      | _ => simp [compare, strip, kind, Kind.rank]
  | .text s, b => by
      cases b with
      | text r => simp [compare, strip, Text.Units.compare_eq_iff, strip_text_inj]
      | _ => simp [compare, strip, kind, Kind.rank]
  | .symbol s, b => by
      cases b with
      | symbol r => simp [compare, strip, Symbol.compare_eq_iff]
      | _ => simp [compare, strip, kind, Kind.rank]
  | .host o, b => by
      cases b with
      | host h => simp [compare, strip, HostObject.compare_eq_iff]
      | _ => simp [compare, strip, kind, Kind.rank]

theorem compareAll_eq_iff : ∀ as bs : List Term, compareAll as bs = .eq ↔ stripAll as = stripAll bs
  | [], bs => by cases bs <;> simp [compareAll, stripAll]
  | a :: as, bs => by
      cases bs with
      | nil => simp [compareAll, stripAll]
      | cons b bs =>
          simp [compareAll, stripAll, Ordering.then_eq_eq, compare_eq_iff a b,
            compareAll_eq_iff as bs]

end

mutual

/-- Comparisons are transitive. -/
theorem chain_compare : ∀ a b c : Term, Chain (compare a b) (compare b c) (compare a c)
  | a, b, c => by
      rw [← compare_rank_then a b, ← compare_rank_then b c, ← compare_rank_then a c]
      refine (Chain.of_compare _ _ _).andThen fun hab hbc => ?_
      -- from here on all three terms are of one rank
      have hb : a.kind.rank = b.kind.rank := Nat.compare_eq_eq.mp hab
      have hc : a.kind.rank = c.kind.rank := hb.trans (Nat.compare_eq_eq.mp hbc)
      cases a with
      | node i f xs =>
          cases b <;> simp [kind, Kind.rank] at hb
          cases c <;> simp [kind, Kind.rank] at hc
          exact (Chain.of_compare _ _ _).andThen fun _ _ =>
            (chain_compare f _ _).andThen fun _ _ => chain_compareAll xs _ _
      | int m | float m =>
          have hbn := isNumber_of_rank hb.symm
          have hcn := isNumber_of_rank hc.symm
          rw [compare_number rfl hbn, compare_number hbn hcn, compare_number rfl hcn]
          exact chain_compareKeys _ _ _
      | magic m =>
          cases b <;> simp [kind, Kind.rank] at hb
          cases c <;> simp [kind, Kind.rank] at hc
          exact Chain.of_compare _ _ _
      | text s =>
          cases b <;> simp [kind, Kind.rank] at hb
          cases c <;> simp [kind, Kind.rank] at hc
          exact Text.Units.chain_compare _ _ _
      | symbol s =>
          cases b <;> simp [kind, Kind.rank] at hb
          cases c <;> simp [kind, Kind.rank] at hc
          exact Symbol.chain_compare _ _ _
      | host o =>
          cases b <;> simp [kind, Kind.rank] at hb
          cases c <;> simp [kind, Kind.rank] at hc
          exact HostObject.chain_compare _ _ _

theorem chain_compareAll : ∀ as bs cs : List Term,
    Chain (compareAll as bs) (compareAll bs cs) (compareAll as cs)
  | [], bs, cs => by cases bs <;> cases cs <;> constructor <;> simp [compareAll]
  | a :: as, bs, cs => by
      cases bs with
      | nil => cases cs <;> constructor <;> simp [compareAll]
      | cons b bs =>
          cases cs with
          | nil => constructor <;> simp [compareAll]
          | cons c cs =>
              exact (chain_compare a b c).andThen fun _ _ => chain_compareAll as bs cs

end

/-! ## sorting -/

theorem compare_congr_left {a a' : Term} (ha : a.strip = a'.strip) (b : Term) :
    compare a b = compare a' b := by
  have heq : compare a a' = .eq := (compare_eq_iff a a').mpr ha
  have hchain := chain_compare a a' b
  have hback := chain_compare b a' a
  rw [compare_swap b a', compare_swap a' a, compare_swap b a] at hback
  cases h : compare a' b with
  | lt => exact hchain.eq_lt heq h
  | eq => exact hchain.eq_eq heq h
  | gt => simpa [h, heq] using hback.lt_eq

/-- Identities do not count in a comparison. -/
theorem compare_congr {a a' b b' : Term} (ha : a.strip = a'.strip) (hb : b.strip = b'.strip) :
    compare a b = compare a' b' := by
  rw [compare_congr_left ha, compare_swap, compare_congr_left hb, ← compare_swap]

theorem compare_strip (a b : Term) : compare a.strip b.strip = compare a b :=
  compare_congr (strip_strip a) (strip_strip b)

theorem le_strip (a b : Term) : le a.strip b.strip = le a b := by
  rw [le, le, compare_strip]

theorem le_trans (a b c : Term) (hab : le a b = true) (hbc : le b c = true) : le a c = true := by
  simp only [le, bne_iff_ne] at *
  exact (chain_compare a b c).ne_gt hab hbc

theorem le_total (a b : Term) : (le a b || le b a) = true := by
  rw [le, le, compare_swap b a]
  cases compare a b <;> rfl

/-- Of two terms in either order neither comes first, so they are equal. -/
theorem strip_eq_of_le {a b : Term} (hab : le a b = true) (hba : le b a = true) :
    a.strip = b.strip := by
  rw [le, compare_swap b a] at hba
  rw [le] at hab
  rw [← compare_eq_iff]
  cases h : compare a b <;> simp [h] at hab hba ⊢

theorem pairwise_sort (ts : List Term) : (sort ts).Pairwise fun a b => le a b = true :=
  List.pairwise_mergeSort le_trans le_total ts

theorem sort_perm (ts : List Term) : (sort ts).Perm ts := List.mergeSort_perm ts le

theorem sort_map_strip (ts : List Term) : sort (ts.map strip) = (sort ts).map strip :=
  (List.map_mergeSort fun a _ b _ => (le_strip a b).symm).symm

/-- Lists with the same terms in any order are sorted alike, identities apart. -/
theorem sort_eq_of_perm {as bs : List Term} (h : (as.map strip).Perm (bs.map strip)) :
    sort (as.map strip) = sort (bs.map strip) := by
  have hperm : (sort (as.map strip)).Perm (sort (bs.map strip)) :=
    ((sort_perm _).trans h).trans (sort_perm _).symm
  refine hperm.eq_of_pairwise (fun a b ha hb hab hba => ?_) (pairwise_sort _) (pairwise_sort _)
  obtain ⟨a, -, rfl⟩ := List.mem_map.mp ((sort_perm _).mem_iff.mp ha)
  obtain ⟨b, -, rfl⟩ := List.mem_map.mp ((sort_perm _).mem_iff.mp hb)
  rw [← strip_strip a, ← strip_strip b, strip_eq_of_le hab hba]

/-! ## the order and equality -/

mutual

/-- Equal terms contribute the same to a structural hash, so comparing hashes first changes no
answer of an equality test. -/
theorem sameDigest_of_equal : ∀ a b : Term, equal a b = true → sameDigest a b = true
  | .node i f xs, b => by
      cases b with
      | node j g ys =>
          simp only [equal, sameDigest, Bool.and_eq_true]
          exact fun ⟨hhead, hargs⟩ =>
            ⟨sameDigest_of_equal f g hhead, sameDigestAll_of_equalAll xs ys hargs⟩
      | _ => exact nofun
  | .int m, b | .float m, b => by
      cases b with
      | int n | float n => simp +contextual [equal, sameDigest, isNumber, kind]
      | _ => exact nofun
  | .host o, b => by
      cases b with
      | host h =>
          simp only [equal, sameDigest, beq_iff_eq, HostObject.beq_iff]
          exact And.right
      | _ => exact nofun
  | .magic m, b | .text m, b | .symbol m, b => by
      cases b with
      | magic n | text n | symbol n => exact id
      | _ => exact nofun

theorem sameDigestAll_of_equalAll : ∀ as bs : List Term, equalAll as bs = true →
    sameDigestAll as bs = true
  | [], bs => by cases bs <;> simp [equalAll, sameDigestAll]
  | a :: as, bs => by
      cases bs with
      | nil => exact nofun
      | cons b bs =>
          simp only [equalAll, sameDigestAll, Bool.and_eq_true]
          exact fun ⟨hfirst, hrest⟩ =>
            ⟨sameDigest_of_equal a b hfirst, sameDigestAll_of_equalAll as bs hrest⟩

end

/-- The order of terms is a total order, and what it does not tell apart is equal; equality is
structural, and hashes respect it. -/
theorem compare_totalOrder (a b c : Term) :
    (le a b = true ∨ le b a = true) ∧
      (le a b = true → le b a = true → (a == b) = true) ∧
      (le a b = true → le b c = true → le a c = true) ∧
      (compare a b = .lt → compare b c = .lt → compare a c = .lt) ∧
      compare a b = (compare b a).swap ∧
      (compare a b = .eq ↔ (a == b) = true) ∧
      ((a == b) = true ↔ a.strip = b.strip) ∧
      ((a == b) = true → sameDigest a b = true) := by
  have htotal : le a b = true ∨ le b a = true := by
    rw [← Bool.or_eq_true]
    exact le_total a b
  have hequal : compare a b = .eq ↔ (a == b) = true := by
    rw [compare_eq_iff, beq_iff_strip]
  refine ⟨htotal, fun hab hba => ?_, le_trans a b c, (chain_compare a b c).lt_lt,
    compare_swap a b, hequal, beq_iff_strip a b, sameDigest_of_equal a b⟩
  rw [beq_iff_strip]
  exact strip_eq_of_le hab hba

/-- Both 2^53 and 2^53 + 1 round to one floating-point number, and both come before it. -/
example : (compare (.int 9007199254740992) (.int 9007199254740993),
    compare (.int 9007199254740993) (.float (nearest 9007199254740992))) = (.lt, .lt) := by
  decide +kernel

end Term

end Termwise
