import CThread.Hash.Representation

/-!
`kh_resize`, which rehashes in place.

The same keys and values serve the old buckets and the new ones. An entry of the old table is
pending as long as its bucket is not marked deleted, an entry is placed when its new bucket is
not empty, and the loops carry one entry at most. No bucket has both a pending and a placed
entry: one that is in the way of the entry carried is carried next. A kick-out chain marks one
more old bucket deleted with every kick, so that it ends.
-/
namespace CThread.Hash
open Faults OpenAddressing Probing
variable {κ υ : Type} {hash : κ → BitVec 32} {h h' : Khash κ υ} {M : κ → Option υ}
  {m i j : Nat} {newFlags newFlags' : KhFlags} {e : κ × υ} {carried : Option (κ × υ)}

/-- What is in the new buckets. -/
def placed (h : Khash κ υ) (m : Nat) (newFlags : KhFlags) (i : Nat) : Option (κ × υ) :=
  if i < 2 ^ m ∧ newFlags.isEmpty i = false then some (h.keys i, h.vals i) else none

def Khash.pendingBuckets (h : Khash κ υ) : Finset Nat :=
  (Finset.range h.nBuckets).filter fun i => (h.entry i).isSome = true

/-- A rehash to `2 ^ m` buckets on its way. -/
structure Rehashing (hash : κ → BitVec 32) (m : Nat) (M : κ → Option υ) (h : Khash κ υ)
    (newFlags : KhFlags) (carried : Option (κ × υ)) : Prop where
  stores : Stores (siteEntry h.entry (placed h m newFlags) carried) M
  probed : Probed (probe hash m) (fun i => newFlags.isEmpty i = false) (placed h m newFlags)
  apart : ∀ i, newFlags.isEmpty i = false → h.entry i = none
  undeleted : ∀ i, newFlags.isDel i = false
  size : HasCard M h.size
  few : h.size < acUpperBound (2 ^ m)
  enough : 2 ≤ m
  short : m ≤ 31
  flags : h.nBuckets ≤ 16 * h.flags.len
  newFlags : newFlags.len = acFsize (2 ^ m)
  cap : h.nBuckets ≤ h.cap ∧ 2 ^ m ≤ h.cap

/-- The fields that a rehash leaves, and the buckets that are done. -/
structure Moved (h h' : Khash κ υ) : Prop where
  buckets : h'.nBuckets = h.nBuckets
  size : h'.size = h.size
  cap : h'.cap = h.cap
  done : ∀ i, h.entry i = none → h'.entry i = none

theorem Moved.refl (h : Khash κ υ) : Moved h h := ⟨rfl, rfl, rfl, fun _ none => none⟩

theorem Moved.trans {h'' : Khash κ υ} (first : Moved h h') (second : Moved h' h'') :
    Moved h h'' where
  buckets := second.buckets.trans first.buckets
  size := second.size.trans first.size
  cap := second.cap.trans first.cap
  done i none := second.done i (first.done i none)

theorem Moved.mark (buckets : h'.nBuckets = h.nBuckets) (size : h'.size = h.size)
    (cap : h'.cap = h.cap) (pending : h'.entry = Function.update h.entry i none) :
    Moved h h' := by
  refine ⟨buckets, size, cap, fun j dead => ?_⟩
  rw [pending]
  by_cases same : j = i
  · rw [same, Function.update_self]
  · rw [Function.update_of_ne same, dead]

theorem Khash.mem_pendingBuckets : i ∈ h.pendingBuckets ↔ (h.entry i).isSome = true := by
  rw [pendingBuckets, Finset.mem_filter, Finset.mem_range, and_iff_right_iff_imp]
  intro here
  obtain ⟨e, here⟩ := Option.isSome_iff_exists.mp here
  exact (Khash.entry_eq_some.mp here).1

theorem Khash.pending_le (h : Khash κ υ) : h.pendingBuckets.card ≤ h.nBuckets := by
  refine (Finset.card_filter_le _ _).trans ?_
  rw [Finset.card_range]

theorem Khash.pending_lt (here : h.entry i = some e)
    (marked : h'.entry = Function.update h.entry i none) :
    h'.pendingBuckets.card < h.pendingBuckets.card := by
  refine Finset.card_lt_card ((Finset.ssubset_iff_of_subset fun j pending => ?_).mpr ⟨i, ?_, ?_⟩)
  · rw [mem_pendingBuckets, marked] at pending
    rw [mem_pendingBuckets]
    by_cases same : j = i
    · rw [same, here]
      rfl
    · rwa [Function.update_of_ne same] at pending
  · rw [mem_pendingBuckets, here]
    rfl
  · rw [mem_pendingBuckets, marked, Function.update_self]
    exact Bool.false_ne_true

theorem Rehashing.within (busy : Rehashing hash m M h newFlags carried) (inside : i < 2 ^ m) :
    i < 16 * newFlags.len := by
  rw [busy.newFlags]
  exact Nat.lt_of_lt_of_le inside (le_acFsize busy.enough)

/-- The load of the new table leaves an empty bucket for the entry carried. -/
theorem Rehashing.empty_bucket (busy : Rehashing hash m M h newFlags (some e)) :
    ∃ i, i < 2 ^ m ∧ newFlags.isEmpty i = true := by
  by_contra full
  have taken : ∀ i ∈ Finset.range (2 ^ m), placed h m newFlags i ≠ none := by
    intro i inside
    have inside := Finset.mem_range.mp inside
    have filled : newFlags.isEmpty i = false :=
      Bool.eq_false_iff.mpr fun empty => full ⟨i, inside, empty⟩
    rw [placed, if_pos ⟨inside, filled⟩]
    exact Option.some_ne_none _
  have less := busy.stores.placed_lt busy.size taken
  rw [Finset.card_range] at less
  have buckets : 4 ≤ 2 ^ m := Nat.pow_le_pow_right (show 2 > 0 by decide) busy.enough
  have bound := acUpperBound_lt buckets
  have few := busy.few
  omega

/-- The search for an empty bucket comes to the first one on the path. -/
theorem emptyFrom_ok {a last : Nat} (within : ∀ i, i < 2 ^ m → i < 16 * newFlags.len)
    (short : m ≤ 32) (empty : newFlags.isEmpty (place m a last) = true) :
    ∀ fuel s, s ≤ last → last < fuel + s →
      (∀ r, r < s → newFlags.isEmpty (place m a r) = false) →
      ∃ t, emptyFrom newFlags (2 ^ m - 1) fuel (place m a s) s = .ok (place m a t) ∧
        newFlags.isEmpty (place m a t) = true ∧
          ∀ r, r < t → newFlags.isEmpty (place m a r) = false := by
  intro fuel
  induction fuel with
  | zero =>
      intro s le less
      omega
  | succ fuel ih =>
      intro s le less before
      simp only [emptyFrom, acIsempty_ok (within _ (place_lt m a s)), ok_bind,
        nextBucket_place short]
      cases here : newFlags.isEmpty (place m a s) with
      | true => exact ⟨s, rfl, here, before⟩
      | false =>
          have ahead : s ≠ last := fun same => by
            rw [same, empty] at here
            cases here
          refine ih (s + 1) (by omega) (by omega) fun r less => ?_
          rcases Nat.lt_succ_iff_lt_or_eq.mp less with earlier | rfl
          · exact before r earlier
          · exact here

theorem Khash.inTheWay_ok (fits : h.nBuckets ≤ 16 * h.flags.len) (i : Nat) :
    h.inTheWay i = .ok (h.entry i).isSome := by
  rw [inTheWay]
  split
  · next inside => exact khExist_ok inside (Nat.lt_of_lt_of_le inside fits)
  · next outside =>
      have none : h.entry i = none := if_neg fun live => outside live.1
      rw [none]
      rfl

theorem StandsFor.ready (stands : StandsFor hash h M) : Stores h.entry M ∧ HasCard M h.size ∧
    h.nBuckets ≤ 16 * h.flags.len ∧ h.nBuckets = h.cap := by
  rcases stands with ⟨zeroed, rfl⟩ | ⟨m, rep⟩
  · have none : h.entry = fun _ => none := funext fun i =>
      Khash.entry_eq_none.mpr fun live => by
        have inside := live.1
        rw [zeroed.buckets] at inside
        cases inside
    rw [none, zeroed.size, zeroed.buckets, zeroed.cap]
    exact ⟨.empty, .empty, Nat.zero_le _, rfl⟩
  · refine ⟨rep.stores, rep.size, ?_, rep.shape.cap⟩
    rw [rep.shape.flags, rep.shape.buckets]
    exact le_acFsize rep.shape.low

/-- Before the first bucket, with memory for the old buckets and the new ones. -/
theorem StandsFor.rehashing (stands : StandsFor hash h M) (enough : 2 ≤ m) (short : m ≤ 31)
    (few : h.size < acUpperBound (2 ^ m)) (entry : h'.entry = h.entry) (size : h'.size = h.size)
    (buckets : h'.nBuckets = h.nBuckets) (flags : h'.flags = h.flags)
    (cap : h'.cap = max h.nBuckets (2 ^ m)) :
    Rehashing hash m M h' (.filled (acFsize (2 ^ m))) none := by
  obtain ⟨stores, card, words, -⟩ := stands.ready
  have empty : placed h' m (.filled (acFsize (2 ^ m))) = fun _ => none := funext fun i =>
    if_neg fun live => by
      rw [filled_isEmpty] at live
      cases live.2
  constructor
  · rw [empty, entry]
    exact stores.start
  · rw [empty]
    exact .empty
  · intro i used
    rw [filled_isEmpty] at used
    cases used
  · exact filled_isDel _
  · rwa [size]
  · rwa [size]
  · exact enough
  · exact short
  · rwa [buckets, flags]
  · rfl
  · rw [buckets, cap]
    omega

/-- With all entries in their new buckets the table is there. -/
theorem Rehashing.finish (idle : Rehashing hash m M h newFlags none)
    (none : ∀ i, h.entry i = none) (buckets : h'.nBuckets = 2 ^ m) (flags : h'.flags = newFlags)
    (keys : h'.keys = h.keys) (vals : h'.vals = h.vals) (size : h'.size = h.size)
    (occupied : h'.nOccupied = h.size) (bound : h'.upperBound = acUpperBound (2 ^ m))
    (cap : h'.nBuckets = h'.cap) : Represents hash h' m M := by
  have entries : h'.entry = placed h m newFlags := by
    funext i
    rw [Khash.entry, placed, buckets, flags, keys, vals, idle.undeleted]
    simp
  have stores : Stores h'.entry M := entries ▸ idle.stores.finish none
  have used : ∀ i, i ∈ h'.usedBuckets ↔ h'.entry i ≠ .none := by
    intro i
    rw [Khash.mem_usedBuckets, Ne, Khash.entry_eq_none, Khash.Used, flags, idle.undeleted]
    simp
  constructor
  · exact ⟨buckets, idle.enough, idle.short, by rw [flags, buckets]; exact idle.newFlags, cap,
      by rw [bound, buckets]⟩
  · exact stores
  · rw [entries]
    have same : h'.Used = fun i => newFlags.isEmpty i = false := by
      funext i
      rw [Khash.Used, flags]
    exact same ▸ idle.probed
  · rw [size]
    exact idle.size
  · rw [occupied]
    exact stores.card_eq idle.size used
  · rw [occupied, bound]
    exact .inl (Nat.le_of_lt idle.few)

section Kick
variable [DecidableEq κ]

/-- The entry carried goes into an empty bucket, and what is pending there is carried next. -/
theorem Rehashing.kick (busy : Rehashing hash m M h newFlags (some e)) (inside : i < 2 ^ m)
    (free : newFlags.isEmpty i = true)
    (reached : Reached (fun j => newFlags.isEmpty j = false) (probe hash m e.1) i)
    (moved : Moved h h') (pending : h'.entry = Function.update h.entry i none)
    (keys : h'.keys = Function.update h.keys i e.1)
    (vals : h'.vals = Function.update h.vals i e.2) (flags : h'.flags.len = h.flags.len)
    (len : newFlags'.len = newFlags.len) (del : newFlags'.isDel = newFlags.isDel)
    (empty : newFlags'.isEmpty = Function.update newFlags.isEmpty i false) :
    Rehashing hash m M h' newFlags' (h.entry i) := by
  have vacant : placed h m newFlags i = none := by
    refine if_neg fun live => ?_
    rw [free] at live
    cases live.2
  have more : ∀ j, newFlags.isEmpty j = false → newFlags'.isEmpty j = false := by
    intro j used
    rw [empty]
    by_cases same : j = i
    · rw [same, Function.update_self]
    · rwa [Function.update_of_ne same]
  have now : placed h' m newFlags' = Function.update (placed h m newFlags) i (some e) := by
    funext j
    by_cases same : j = i
    · subst same
      rw [Function.update_self, placed, empty, keys, vals, Function.update_self,
        Function.update_self, Function.update_self]
      exact if_pos ⟨inside, rfl⟩
    · rw [Function.update_of_ne same, placed, placed, empty, keys, vals,
        Function.update_of_ne same, Function.update_of_ne same, Function.update_of_ne same]
  have taken : newFlags'.isEmpty i = false := by rw [empty, Function.update_self]
  constructor
  · rw [now, pending]
    have landed := busy.stores.place vacant
    cases here : h.entry i with
    | none =>
        rw [← here, Function.update_eq_self, here]
        exact landed
    | some e' => exact landed.pick here
  · rw [now]
    exact (busy.probed.mono more).add taken (reached.mono more) e.2
  · intro j used
    rw [pending]
    by_cases same : j = i
    · rw [same, Function.update_self]
    · rw [empty, Function.update_of_ne same] at used
      rw [Function.update_of_ne same]
      exact busy.apart j used
  · intro j
    rw [del]
    exact busy.undeleted j
  · rw [moved.size]
    exact busy.size
  · rw [moved.size]
    exact busy.few
  · exact busy.enough
  · exact busy.short
  · rw [moved.buckets, flags]
    exact busy.flags
  · rw [len]
    exact busy.newFlags
  · rw [moved.buckets, moved.cap]
    exact busy.cap

/-- A pending entry is taken out of its old bucket. -/
theorem Rehashing.pick (idle : Rehashing hash m M h newFlags none) (here : h.entry i = some e)
    (moved : Moved h h') (pending : h'.entry = Function.update h.entry i none)
    (keys : h'.keys = h.keys) (vals : h'.vals = h.vals) (flags : h'.flags.len = h.flags.len) :
    Rehashing hash m M h' newFlags (some e) := by
  have same : placed h' m newFlags = placed h m newFlags := by
    funext j
    rw [placed, placed, keys, vals]
  constructor
  · rw [same, pending]
    exact idle.stores.pick here
  · rw [same]
    exact idle.probed
  · exact fun j used => moved.done j (idle.apart j used)
  · exact idle.undeleted
  · rw [moved.size]
    exact idle.size
  · rw [moved.size]
    exact idle.few
  · exact idle.enough
  · exact idle.short
  · rw [moved.buckets, flags]
    exact idle.flags
  · exact idle.newFlags
  · rw [moved.buckets, moved.cap]
    exact idle.cap

/-- A kick-out chain places the entry it starts with, and all those it kicks out. -/
theorem kickOut_ok : ∀ fuel (h : Khash κ υ) (newFlags : KhFlags) (e : κ × υ),
    Rehashing hash m M h newFlags (some e) → h.pendingBuckets.card < fuel →
    ∃ h' newFlags', Khash.kickOut hash (2 ^ m) fuel h newFlags e.1 e.2 = .ok (h', newFlags') ∧
      Rehashing hash m M h' newFlags' none ∧ Moved h h' := by
  intro fuel
  induction fuel with
  | zero =>
      intro h newFlags e busy less
      omega
  | succ fuel ih =>
      intro h newFlags e busy less
      have short := busy.short
      obtain ⟨b, inside, room⟩ := busy.empty_bucket
      obtain ⟨last, steps, rfl⟩ := place_surj (hash e.1).toNat inside
      obtain ⟨t, search, free, before⟩ := emptyFrom_ok (fun i => busy.within) (by omega) room
        (2 * 2 ^ m) 0 (Nat.zero_le last) (by omega) fun r less => by omega
      have inside := place_lt m (hash e.1).toNat t
      have allocated : place m (hash e.1).toNat t < h.cap :=
        Nat.lt_of_lt_of_le inside busy.cap.2
      have reached : Reached (fun j => newFlags.isEmpty j = false) (probe hash m e.1)
          (place m (hash e.1).toNat t) := ⟨t, rfl, before⟩
      generalize place m (hash e.1).toNat t = i at search free inside allocated reached
      obtain ⟨newFlags', set, len, del, empty⟩ := acSetIsemptyFalse_ok (busy.within inside)
      let h₀ : Khash κ υ := { h with keys := Function.update h.keys i e.1 }
      let h₁ : Khash κ υ := { h₀ with vals := Function.update h.vals i e.2 }
      have readVal : h₀.khVal i = .ok (h.vals i) := Khash.khVal_ok allocated
      have write : h₀.writeVal i e.2 = .ok h₁ :=
        Khash.writeVal_ok (h := h₀) allocated e.2
      have others : ∀ j, j ≠ i → h.SameBucket h₁ j := fun j ne =>
        ⟨rfl, rfl, Function.update_of_ne ne .., Function.update_of_ne ne ..⟩
      simp only [Khash.kickOut, firstBucket_place, search, ok_bind, set,
        Khash.inTheWay_ok busy.flags, Khash.readKey_ok allocated, Khash.writeKey_ok allocated]
      cases here : h.entry i with
      | none =>
          have still : h₁.entry i = none :=
            Khash.entry_eq_none.mpr (Khash.entry_eq_none (h := h).mp here)
          have pending : h₁.entry = Function.update h.entry i none :=
            Khash.entry_update rfl others still
          have moved : Moved h h₁ := .mark rfl rfl rfl pending
          have kicked := busy.kick inside free reached moved pending rfl rfl rfl len del empty
          rw [here] at kicked
          refine ⟨h₁, newFlags', ?_, kicked, moved⟩
          rw [if_neg (by simp), write]
          rfl
      | some e' =>
          obtain ⟨old, -, -, rfl⟩ := Khash.entry_eq_some.mp here
          obtain ⟨flags, mark, words, delFlags, emptyFlags⟩ :=
            acSetIsdelTrue_ok (Nat.lt_of_lt_of_le old busy.flags)
          let h₂ : Khash κ υ := { h₁ with flags := flags }
          have pending : h₂.entry = Function.update h.entry i none :=
            Khash.entry_mark rfl delFlags emptyFlags fun j ne =>
              ⟨(others j ne).key, (others j ne).val⟩
          have moved : Moved h h₂ := .mark rfl rfl rfl pending
          have kicked := busy.kick inside free reached moved pending rfl rfl words len del empty
          rw [here] at kicked
          have fewer := Khash.pending_lt here pending
          obtain ⟨h', newFlags'', run, done, moved'⟩ := ih h₂ newFlags' _ kicked (by omega)
          refine ⟨h', newFlags'', ?_, done, moved.trans moved'⟩
          rw [if_pos (Option.isSome_some ..), readVal, ok_bind, write, ok_bind, mark]
          exact run

/-- The loop over the old buckets leaves none pending. -/
theorem rehashFrom_ok : ∀ rest j (h : Khash κ υ) (newFlags : KhFlags),
    Rehashing hash m M h newFlags none → j + rest = h.nBuckets →
    (∀ i, i < j → h.entry i = none) →
    ∃ h' newFlags', Khash.rehashFrom hash (2 ^ m) rest j h newFlags = .ok (h', newFlags') ∧
      Rehashing hash m M h' newFlags' none ∧ Moved h h' ∧ ∀ i, h'.entry i = none := by
  intro rest
  induction rest with
  | zero =>
      intro j h newFlags idle ends before
      refine ⟨h, newFlags, rfl, idle, .refl h, fun i => ?_⟩
      rcases Nat.lt_or_ge i h.nBuckets with inside | outside
      · exact before i (by omega)
      · exact Khash.entry_eq_none.mpr fun live => absurd live.1 (by omega)
  | succ rest ih =>
      intro j h newFlags idle ends before
      have inside : j < h.nBuckets := by omega
      have old := Nat.lt_of_lt_of_le inside idle.flags
      have allocated := Nat.lt_of_lt_of_le inside idle.cap.1
      simp only [Khash.rehashFrom, Khash.khExist_ok inside old, ok_bind,
        Khash.readKey_ok allocated, Khash.khVal_ok allocated]
      cases here : h.entry j with
      | none =>
          rw [if_neg (by simp)]
          refine ih (j + 1) h newFlags idle (by omega) fun i less => ?_
          rcases Nat.lt_succ_iff_lt_or_eq.mp less with earlier | rfl
          · exact before i earlier
          · exact here
      | some e =>
          obtain ⟨-, -, -, rfl⟩ := Khash.entry_eq_some.mp here
          obtain ⟨flags, mark, words, delFlags, emptyFlags⟩ := acSetIsdelTrue_ok old
          let h₁ : Khash κ υ := { h with flags := flags }
          have pending : h₁.entry = Function.update h.entry j none :=
            Khash.entry_mark rfl delFlags emptyFlags fun _ _ => ⟨rfl, rfl⟩
          have gone : h₁.entry j = none := by rw [pending, Function.update_self]
          have moved : Moved h h₁ := .mark rfl rfl rfl pending
          have busy := idle.pick here moved pending rfl rfl words
          obtain ⟨h₂, newFlags₂, chain, idle₂, moved₂⟩ :=
            kickOut_ok (h.nBuckets + 1) h₁ newFlags _ busy (Nat.lt_succ_of_le h₁.pending_le)
          have both := moved.trans moved₂
          obtain ⟨h', newFlags', run, done⟩ := ih (j + 1) h₂ newFlags₂ idle₂
            (by rw [both.buckets]; omega) fun i less => by
              rcases Nat.lt_succ_iff_lt_or_eq.mp less with earlier | rfl
              · exact both.done i (before i earlier)
              · exact moved₂.done i gone
          refine ⟨h', newFlags', ?_, done.1, both.trans done.2.1, done.2.2⟩
          rw [if_pos (Option.isSome_some ..), mark, ok_bind, chain]
          exact run

end Kick

/-- What `kh_resize` makes of a table. -/
structure Resized (hash : κ → BitVec 32) (h h' : Khash κ υ) (request : Nat)
    (M : κ → Option υ) : Prop where
  few : h.size < acUpperBound (roundedBuckets request)
  buckets : h'.nBuckets = roundedBuckets request
  size : h'.size = h.size
  occupied : h'.nOccupied = h.size
  undeleted : ∀ i, h'.flags.isDel i = false
  represents : ∃ m, Represents hash h' m M

variable [DecidableEq κ]

/-- `kh_resize` keeps what the table stands for, whatever size is asked for. -/
theorem khResize_ok (stands : StandsFor hash h M) (request : Nat) :
    ∃ h', h.khResize hash request = .ok h' ∧
      ((acUpperBound (roundedBuckets request) ≤ h.size ∧ h' = h) ∨
        Resized hash h h' request M) := by
  obtain ⟨m, enough, short, rounded⟩ := roundedBuckets_power request
  by_cases small : acUpperBound (2 ^ m) ≤ h.size
  · exact ⟨h, if_pos (rounded ▸ small), .inl ⟨rounded ▸ small, rfl⟩⟩
  obtain ⟨-, -, -, cap⟩ := stands.ready
  let h₁ := if h.nBuckets < 2 ^ m then h.reallocated (2 ^ m) else h
  have fields : h₁.entry = h.entry ∧ h₁.size = h.size ∧ h₁.nBuckets = h.nBuckets ∧
      h₁.flags = h.flags ∧ h₁.cap = max h.nBuckets (2 ^ m) := by
    simp only [h₁]
    split
    · exact ⟨rfl, rfl, rfl, rfl, (by omega : 2 ^ m = max h.nBuckets (2 ^ m))⟩
    · exact ⟨rfl, rfl, rfl, rfl, by omega⟩
  obtain ⟨entry, size₁, buckets, flags₁, cap₁⟩ := fields
  have start : Rehashing hash m M h₁ (.filled (acFsize (2 ^ m))) none :=
    stands.rehashing enough short (Nat.lt_of_not_le small) entry size₁ buckets flags₁ cap₁
  obtain ⟨h₂, newFlags, run, idle, moved, none⟩ :=
    rehashFrom_ok h₁.nBuckets 0 h₁ _ start (Nat.zero_add _) fun i less => by omega
  let h₃ := if h₂.nBuckets > 2 ^ m then h₂.reallocated (2 ^ m) else h₂
  let h₄ : Khash κ υ := { h₃ with
    flags := newFlags, nBuckets := 2 ^ m, nOccupied := h₃.size, upperBound := acUpperBound (2 ^ m) }
  have same : h₃.keys = h₂.keys ∧ h₃.vals = h₂.vals ∧ h₃.size = h₂.size ∧ 2 ^ m = h₃.cap := by
    have cap₂ : h₂.cap = max h₂.nBuckets (2 ^ m) := by
      rw [moved.cap, moved.buckets, cap₁, buckets]
    simp only [h₃]
    split
    · exact ⟨rfl, rfl, rfl, rfl⟩
    · exact ⟨rfl, rfl, rfl, by omega⟩
  have size₂ : h₂.size = h.size := moved.size.trans size₁
  refine ⟨h₄, ?_, .inr ⟨rounded ▸ Nat.lt_of_not_le small, rounded.symm, same.2.2.1.trans size₂,
    same.2.2.1.trans size₂, idle.undeleted, m, ?_⟩⟩
  · simp only [Khash.khResize, rounded]
    rw [if_neg small]
    show (Khash.rehashFrom hash (2 ^ m) h₁.nBuckets 0 h₁ _ >>= _) = _
    rw [run]
    rfl
  · exact idle.finish none rfl rfl same.1 same.2.1 same.2.2.1 same.2.2.1 rfl same.2.2.2

end CThread.Hash
