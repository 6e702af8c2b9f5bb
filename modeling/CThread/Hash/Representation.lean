import CThread.Hash.Sizes
import CThread.Lib.OpenAddressing

/-!
What the table stands for, and searching it.

A table of `2 ^ m` buckets has an entry in each bucket that is neither empty nor deleted. The
places of open addressing are the buckets, those used are the ones not empty, and the path of
a key is the triangular path of its hash. A search that meets neither the key nor an empty
bucket ends when it is back where it started, and by then it has passed every bucket.
-/
namespace CThread.Hash
open Faults OpenAddressing Probing
variable {κ υ : Type}

namespace Khash

/-- The key and the value in a bucket. -/
def entry (h : Khash κ υ) (i : Nat) : Option (κ × υ) :=
  if i < h.nBuckets ∧ h.flags.isEmpty i = false ∧ h.flags.isDel i = false then
    some (h.keys i, h.vals i)
  else none

def Used (h : Khash κ υ) (i : Nat) : Prop := h.flags.isEmpty i = false

def usedBuckets (h : Khash κ υ) : Finset Nat :=
  (Finset.range h.nBuckets).filter fun i => h.flags.isEmpty i = false

end Khash

/-- `2 ^ m` buckets, with flags, keys and values allocated for them. -/
structure Shape (h : Khash κ υ) (m : Nat) : Prop where
  buckets : h.nBuckets = 2 ^ m
  low : 2 ≤ m
  high : m ≤ 31
  flags : h.flags.len = acFsize h.nBuckets
  cap : h.nBuckets = h.cap
  bound : h.upperBound = acUpperBound h.nBuckets

/-- The buckets that the search for a key looks at. -/
def probe (hash : κ → BitVec 32) (m : Nat) (key : κ) : Nat → Nat := place m (hash key).toNat

structure Represents (hash : κ → BitVec 32) (h : Khash κ υ) (m : Nat) (M : κ → Option υ) :
    Prop where
  shape : Shape h m
  stores : Stores h.entry M
  probed : Probed (probe hash m) h.Used h.entry
  size : HasCard M h.size
  occupied : h.usedBuckets.card = h.nOccupied
  load : h.nOccupied ≤ h.upperBound ∨ m = 31

/-- `kh_init`, with nothing allocated. -/
structure Zeroed (h : Khash κ υ) : Prop where
  buckets : h.nBuckets = 0
  size : h.size = 0
  occupied : h.nOccupied = 0
  bound : h.upperBound = 0
  flags : h.flags.len = 0
  cap : h.cap = 0

/-- The table stands for a map. -/
def StandsFor (hash : κ → BitVec 32) (h : Khash κ υ) (M : κ → Option υ) : Prop :=
  (Zeroed h ∧ M = fun _ => none) ∨ ∃ m, Represents hash h m M

variable {hash : κ → BitVec 32} {h : Khash κ υ} {m : Nat} {M : κ → Option υ} {i x : Nat}
  {key : κ} {v : υ}

theorem Shape.within (shape : Shape h m) (inside : i < h.nBuckets) : i < 16 * h.flags.len := by
  have room := le_acFsize shape.low
  rw [shape.flags]
  rw [shape.buckets] at inside ⊢
  omega

theorem Shape.four_le (shape : Shape h m) : 4 ≤ h.nBuckets := by
  rw [shape.buckets]
  exact Nat.pow_le_pow_right (show 2 > 0 by decide) shape.low

theorem Shape.place_lt (shape : Shape h m) (a s : Nat) : place m a s < h.nBuckets := by
  rw [shape.buckets]
  exact Probing.place_lt m a s

/-- Twice the buckets, in which a path comes back to its start. -/
theorem Shape.double (shape : Shape h m) : 2 ^ (m + 1) = 2 * h.nBuckets := by
  rw [shape.buckets, Nat.pow_succ, Nat.mul_comm]

theorem Shape.firstBucket (shape : Shape h m) (a : BitVec 32) :
    a.toNat &&& h.nBuckets - 1 = place m a.toNat 0 := by
  rw [shape.buckets]
  exact firstBucket_place m _

theorem Shape.keep {h' : Khash κ υ} (shape : Shape h m) (buckets : h'.nBuckets = h.nBuckets)
    (flags : h'.flags.len = h.flags.len) (cap : h'.cap = h.cap)
    (bound : h'.upperBound = h.upperBound) : Shape h' m where
  buckets := buckets.trans shape.buckets
  low := shape.low
  high := shape.high
  flags := by rw [flags, buckets, shape.flags]
  cap := by rw [buckets, cap, shape.cap]
  bound := by rw [bound, buckets, shape.bound]

namespace Khash

theorem readKey_ok (inside : i < h.cap) : h.readKey i = .ok (h.keys i) := if_pos inside

theorem khVal_ok (inside : i < h.cap) : h.khVal i = .ok (h.vals i) := if_pos inside

theorem writeKey_ok (inside : i < h.cap) (key : κ) :
    h.writeKey i key = .ok { h with keys := Function.update h.keys i key } := if_pos inside

theorem writeVal_ok (inside : i < h.cap) (v : υ) :
    h.writeVal i v = .ok { h with vals := Function.update h.vals i v } := if_pos inside

theorem entry_eq_some {e : κ × υ} : h.entry i = some e ↔
    i < h.nBuckets ∧ h.flags.isEmpty i = false ∧ h.flags.isDel i = false ∧
      e = (h.keys i, h.vals i) := by
  rw [entry]
  split
  · next live =>
      rw [Option.some_inj, eq_comm]
      simp [live]
  · next dead =>
      refine ⟨(nomatch ·), fun ⟨inside, empty, del, _⟩ => ?_⟩
      exact absurd ⟨inside, empty, del⟩ dead

theorem entry_eq_none : h.entry i = none ↔
    ¬ (i < h.nBuckets ∧ h.flags.isEmpty i = false ∧ h.flags.isDel i = false) := by
  rw [entry]
  split
  · next live => exact ⟨(nomatch ·), fun dead => absurd live dead⟩
  · next dead => exact ⟨fun _ => dead, fun _ => rfl⟩

theorem entry_none_of_empty (empty : h.flags.isEmpty i = true) : h.entry i = none := by
  refine entry_eq_none.mpr fun live => ?_
  rw [empty] at live
  cases live.2.1

theorem entry_none_of_del (del : h.flags.isDel i = true) : h.entry i = none := by
  refine entry_eq_none.mpr fun live => ?_
  rw [del] at live
  cases live.2.2

theorem mem_usedBuckets : i ∈ h.usedBuckets ↔ i < h.nBuckets ∧ h.Used i := by
  rw [usedBuckets, Finset.mem_filter, Finset.mem_range]
  rfl

/-- The flags of a bucket, and whether it has an entry. -/
theorem entry_isSome (inside : i < h.nBuckets) :
    (h.entry i).isSome = !(h.flags.isDel i || h.flags.isEmpty i) := by
  rw [entry]
  cases h.flags.isEmpty i with
  | true => simp
  | false =>
      cases h.flags.isDel i with
      | true => simp
      | false => simp [inside]

theorem khExist_ok (inside : i < h.nBuckets) (allocated : i < 16 * h.flags.len) :
    h.khExist i = .ok (h.entry i).isSome := by
  rw [khExist, acIseither_ok allocated, entry_isSome inside]
  rfl

/-- A bucket that an operation leaves as it is. -/
structure SameBucket (h h' : Khash κ υ) (i : Nat) : Prop where
  empty : h'.flags.isEmpty i = h.flags.isEmpty i
  del : h'.flags.isDel i = h.flags.isDel i
  key : h'.keys i = h.keys i
  val : h'.vals i = h.vals i

theorem entry_update {h' : Khash κ υ} {e : Option (κ × υ)} (buckets : h'.nBuckets = h.nBuckets)
    (others : ∀ j, j ≠ i → SameBucket h h' j) (here : h'.entry i = e) :
    h'.entry = Function.update h.entry i e := by
  funext j
  by_cases same : j = i
  · rw [same, here, Function.update_self]
  · obtain ⟨empty, del, key, val⟩ := others j same
    rw [Function.update_of_ne same, entry, entry, buckets, empty, del, key, val]

/-- A bucket that is marked deleted has no entry any more. -/
theorem entry_mark {h' : Khash κ υ} (buckets : h'.nBuckets = h.nBuckets)
    (del : h'.flags.isDel = Function.update h.flags.isDel i true)
    (empty : h'.flags.isEmpty = h.flags.isEmpty)
    (others : ∀ j, j ≠ i → h'.keys j = h.keys j ∧ h'.vals j = h.vals j) :
    h'.entry = Function.update h.entry i none := by
  refine entry_update buckets (fun j ne => ⟨congrFun empty j, ?_, (others j ne).1,
    (others j ne).2⟩) (entry_none_of_del ?_)
  · rw [del, Function.update_of_ne ne]
  · rw [del, Function.update_self]

/-- A search for the key goes on past the bucket. -/
def Passes (h : Khash κ υ) (key : κ) (i : Nat) : Prop :=
  h.Used i ∧ ∀ v, h.entry i ≠ some (key, v)

end Khash

/-- The search along the path from `a` comes to a halt after `t` steps. -/
structure Halts (h : Khash κ υ) (m : Nat) (key : κ) (a t : Nat) : Prop where
  passed : ∀ r, r < t → h.Passes key (place m a r)
  stops : ¬ h.Passes key (place m a t)

/-- The search passes every bucket. -/
def Circles (h : Khash κ υ) (key : κ) : Prop := ∀ i, i < h.nBuckets → h.Passes key i

section Search
variable {a s : Nat}

/-- Where a search stops, there is the key or an empty bucket. -/
theorem Halts.found_or_empty (halts : Halts h m key a s) :
    (∃ v, h.entry (place m a s) = some (key, v)) ∨ h.flags.isEmpty (place m a s) = true := by
  by_contra neither
  obtain ⟨absent, used⟩ := not_or.mp neither
  exact halts.stops ⟨Bool.eq_false_iff.mpr used, fun v here => absent ⟨v, here⟩⟩

theorem Represents.halts_absent (rep : Represents hash h m M)
    (halts : Halts h m key (hash key).toNat s)
    (empty : h.flags.isEmpty (probe hash m key s) = true) : M key = none := by
  refine rep.probed.absent rep.stores (s := s) (fun used => ?_) fun r before v =>
    (halts.passed r before).2 v
  rw [Khash.Used, empty] at used
  cases used

theorem Represents.circles_absent (rep : Represents hash h m M) (circles : Circles h key) :
    M key = none := by
  cases stored : M key with
  | none => rfl
  | some v =>
      obtain ⟨b, here⟩ := (rep.stores.entry_iff key v).mp stored
      exact absurd here ((circles b (Khash.entry_eq_some.mp here).1).2 v)

/-- Full circle, after so many steps and not before. -/
theorem circles_of_passed (shape : Shape h m)
    (passed : ∀ r, r < 2 ^ (m + 1) - 1 → h.Passes key (place m a r)) : Circles h key := by
  intro i inside
  rw [shape.buckets] at inside
  obtain ⟨r, less, rfl⟩ := place_surj a inside
  refine passed r ?_
  have double := shape.double
  have buckets := shape.buckets
  omega

theorem next_eq_last (moved : 0 < s) (within : s ≤ 2 ^ (m + 1) - 1) :
    place m a s = place m a 0 ↔ s = 2 ^ (m + 1) - 1 := by
  constructor
  · intro back
    by_contra other
    exact place_ne_start moved (by omega) back
  · rintro rfl
    exact place_again m a

theorem Shape.nextBucket (shape : Shape h m) (a s : Nat) :
    nextBucket (h.nBuckets - 1) (place m a s) (s + 1) = place m a (s + 1) := by
  rw [shape.buckets]
  exact nextBucket_place (by have := shape.high; omega) a s

theorem passed_next (passed : ∀ r, r < s → h.Passes key (place m a r))
    (here : h.Passes key (place m a s)) : ∀ r, r < s + 1 → h.Passes key (place m a r) := by
  intro r less
  rcases Nat.lt_succ_iff_lt_or_eq.mp less with before | rfl
  · exact passed r before
  · exact here

variable [DecidableEq κ]

theorem Shape.passes_ok (shape : Shape h m) (inside : i < h.nBuckets) (key : κ) :
    ∃ b, h.passes key i = .ok b ∧ (b = true ↔ h.Passes key i) := by
  have allocated := shape.within inside
  simp only [Khash.passes, acIsempty_ok allocated, acIsdel_ok allocated,
    Khash.readKey_ok (shape.cap ▸ inside), ok_bind, pure_eq_ok]
  cases empty : h.flags.isEmpty i with
  | true =>
      refine ⟨false, rfl, (nomatch ·), fun passes => ?_⟩
      rw [Khash.Passes, Khash.Used, empty] at passes
      cases passes.1
  | false =>
      cases del : h.flags.isDel i with
      | true =>
          refine ⟨true, rfl, fun _ => ⟨empty, fun v here => ?_⟩, fun _ => rfl⟩
          rw [Khash.entry_none_of_del del] at here
          cases here
      | false =>
          refine ⟨decide (h.keys i ≠ key), rfl, ?_⟩
          rw [decide_eq_true_iff]
          constructor
          · intro other
            refine ⟨empty, fun v here => other ?_⟩
            exact (congrArg Prod.fst (Khash.entry_eq_some.mp here).2.2.2).symm
          · intro passes same
            refine passes.2 (h.vals i) (Khash.entry_eq_some.mpr ⟨inside, empty, del, ?_⟩)
            rw [same]

theorem khGetLoop_ok (shape : Shape h m) : ∀ fuel s, s < 2 ^ (m + 1) - 1 →
    2 ^ (m + 1) ≤ fuel + s + 1 → (∀ r, r < s → h.Passes key (place m a r)) →
    ∃ out, h.khGetLoop key (place m a 0) fuel (place m a s) s = .ok out ∧
      ((∃ t, Halts h m key a t ∧ out =
        if (h.entry (place m a t)).isSome then place m a t else h.nBuckets) ∨
        (Circles h key ∧ out = h.nBuckets)) := by
  intro fuel
  induction fuel with
  | zero =>
      intro s within enough
      omega
  | succ fuel ih =>
      intro s within enough passed
      have inside := shape.place_lt a s
      obtain ⟨b, run, iff⟩ := shape.passes_ok inside key
      simp only [Khash.khGetLoop, run, ok_bind, shape.nextBucket]
      cases b with
      | true =>
          have more := passed_next passed (iff.mp rfl)
          rw [if_pos rfl]
          by_cases full : place m a (s + 1) = place m a 0
          · have around := (next_eq_last (Nat.succ_pos s) (by omega)).mp full
            refine ⟨h.nBuckets, if_pos full, .inr ⟨circles_of_passed (a := a) shape ?_, rfl⟩⟩
            exact around ▸ more
          · rw [if_neg full]
            have ahead : s + 1 ≠ 2 ^ (m + 1) - 1 := fun around =>
              full ((next_eq_last (Nat.succ_pos s) (by omega)).mpr around)
            exact ih (s + 1) (by omega) (by omega) more
      | false =>
          have stops : ¬ h.Passes key (place m a s) := fun passes => by cases iff.mpr passes
          refine ⟨_, ?_, .inl ⟨s, ⟨passed, stops⟩, rfl⟩⟩
          rw [acIseither_ok (shape.within inside), Khash.entry_isSome inside]
          cases h.flags.isDel (place m a s) || h.flags.isEmpty (place m a s) <;> rfl

/-- `kh_get` finds the bucket of a key that is there, and `kh_end` otherwise. -/
theorem khGet_ok (stands : StandsFor hash h M) (key : κ) :
    ∃ b, h.khGet hash key = .ok b ∧
      ((M key = none ∧ b = h.khEnd) ∨ ∃ v, M key = some v ∧ h.entry b = some (key, v)) := by
  rcases stands with ⟨zeroed, rfl⟩ | ⟨m, rep⟩
  · exact ⟨0, if_pos zeroed.buckets, .inl ⟨rfl, zeroed.buckets.symm⟩⟩
  have shape := rep.shape
  have enough := shape.four_le
  have double := shape.double
  obtain ⟨b, run, cases⟩ := khGetLoop_ok (a := (hash key).toNat) shape
    (2 * h.nBuckets) 0 (by omega) (by omega) fun r less => by omega
  refine ⟨b, ?_, ?_⟩
  · rw [Khash.khGet, if_neg (by omega), shape.firstBucket]
    exact run
  rcases cases with ⟨t, halts, rfl⟩ | ⟨circles, rfl⟩
  · rcases halts.found_or_empty with ⟨v, here⟩ | empty
    · rw [here]
      exact .inr ⟨v, rep.stores.lookup here, here⟩
    · rw [Khash.entry_none_of_empty empty]
      exact .inl ⟨rep.halts_absent halts empty, rfl⟩
  · exact .inl ⟨rep.circles_absent circles, rfl⟩

end Search

end CThread.Hash
