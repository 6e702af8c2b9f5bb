import CThread.Hash.Rehash

/-!
The operations on the table, each of which changes what it stands for as its name says.

`kh_put` first makes room: when no more buckets may be used it rehashes, into as many buckets
if the table is less than half full and into twice as many otherwise. Past `2 ^ 31` buckets
there is no growing, so that the table can be used up to its last bucket.
-/
namespace CThread.Hash
open Faults OpenAddressing Probing
variable {κ υ : Type} {hash : κ → BitVec 32} {h h' : Khash κ υ} {M : κ → Option υ}
  {m i x : Nat} {key : κ} {v : υ}

/-- The map has the key, or fewer keys than there can be buckets. -/
def Room (M : κ → Option υ) (key : κ) : Prop :=
  M key ≠ none ∨ ∃ n, HasCard M n ∧ n < 2 ^ 31

/-- Another bucket may be used. -/
def Spare (h : Khash κ υ) (m : Nat) : Prop := h.nOccupied < h.upperBound ∨ m = 31

theorem Represents.standsFor (rep : Represents hash h m M) : StandsFor hash h M := .inr ⟨m, rep⟩

theorem Represents.occupied_le (rep : Represents hash h m M) : h.nOccupied ≤ h.nBuckets := by
  rw [← rep.occupied]
  refine (Finset.card_filter_le _ _).trans ?_
  rw [Finset.card_range]

theorem Represents.size_le (rep : Represents hash h m M) : h.size ≤ h.nOccupied := by
  have all : ∀ i, i ∈ h.usedBuckets.filter (fun i => (h.entry i).isSome = true) ↔
      h.entry i ≠ none := by
    intro i
    rw [Finset.mem_filter, Khash.mem_usedBuckets, Option.ne_none_iff_isSome, and_iff_right_iff_imp]
    intro here
    obtain ⟨e, here⟩ := Option.isSome_iff_exists.mp here
    obtain ⟨inside, used, -⟩ := Khash.entry_eq_some.mp here
    exact ⟨inside, used⟩
  rw [← rep.occupied, ← rep.stores.card_eq rep.size all]
  exact Finset.card_filter_le _ _

/-- `h->size << 1` in 32 bits. -/
theorem Represents.size_double (rep : Represents hash h m M) :
    (h.size <<< 1) % 2 ^ 32 = if h.size = 2 ^ 31 then 0 else 2 * h.size := by
  have fewer := rep.size_le
  have taken := rep.occupied_le
  have most : 2 ^ m ≤ 2 ^ 31 := Nat.pow_le_pow_right (by decide) rep.shape.high
  rw [← rep.shape.buckets] at most
  rw [Nat.shiftLeft_eq]
  split <;> omega

/-- The table after the resizing of `kh_put`. -/
structure Reserved (hash : κ → BitVec 32) (h h' : Khash κ υ) (m : Nat) (M : κ → Option υ) :
    Prop where
  represents : Represents hash h' m M
  spare : Spare h' m
  size : h'.size = h.size
  buckets : h'.nBuckets ≤ max h.nBuckets (max 4 (4 * h.size))

theorem Resized.reserved {request : Nat} (resized : Resized hash h h' request M)
    (buckets : roundedBuckets request ≤ max h.nBuckets (max 4 (4 * h.size))) :
    ∃ m, Reserved hash h h' m M := by
  obtain ⟨m, rep⟩ := resized.represents
  refine ⟨m, rep, .inl ?_, resized.size, resized.buckets ▸ buckets⟩
  rw [resized.occupied, rep.shape.bound, resized.buckets]
  exact resized.few

section Put
variable [DecidableEq κ]

/-- Before anything is put, the table gets its first buckets. -/
theorem khReserve_first (zeroed : Zeroed h) :
    ∃ h' m, h.khReserve hash = .ok h' ∧ Reserved hash h h' m fun _ => none := by
  have one : roundedBuckets 1 = 4 := by decide
  have stands : StandsFor hash h fun _ => none := .inl ⟨zeroed, rfl⟩
  obtain ⟨h', run, ⟨large, -⟩ | resized⟩ := khResize_ok stands 1
  · rw [one, zeroed.size] at large
    exact absurd large (by decide)
  · obtain ⟨m, reserved⟩ := resized.reserved (by rw [one]; omega)
    refine ⟨h', m, ?_, reserved⟩
    rw [Khash.khReserve, zeroed.occupied, zeroed.bound, zeroed.buckets, if_pos (Nat.le_refl 0),
      if_neg (Nat.not_lt_zero _)]
    exact run

/-- A table that is less than half full is rehashed into as many buckets. A full one of
`2 ^ 31` buckets is left as it is. -/
theorem Represents.purge (rep : Represents hash h m M)
    (few : (h.size <<< 1) % 2 ^ 32 < h.nBuckets) :
    ∃ h' m', h.khResize hash (h.nBuckets - 1) = .ok h' ∧ Reserved hash h h' m' M := by
  have shape := rep.shape
  have buckets := shape.buckets
  have four := shape.four_le
  have same : roundedBuckets (h.nBuckets - 1) = h.nBuckets := by
    rw [buckets] at four ⊢
    exact roundedBuckets_eq shape.low shape.high (by omega) (by omega)
  obtain ⟨h', run, ⟨large, rfl⟩ | resized⟩ := khResize_ok rep.standsFor (h.nBuckets - 1)
  · -- The size has lost its highest bit.
    rw [same] at large
    rw [rep.size_double] at few
    have half := half_le_acUpperBound h'.nBuckets
    have even : 4 ∣ h'.nBuckets := buckets ▸ Nat.pow_dvd_pow 2 shape.low
    have full : h'.size = 2 ^ 31 := by
      by_contra other
      rw [if_neg other] at few
      omega
    have fewer := rep.size_le
    have taken := rep.occupied_le
    have last : m = 31 := by
      by_contra other
      have less : h'.nBuckets < 2 ^ 31 :=
        buckets ▸ Nat.pow_lt_pow_right (by decide) (by have := shape.high; omega)
      omega
    exact ⟨h', m, run, rep, .inr last, rfl, by omega⟩
  · obtain ⟨m', reserved⟩ := resized.reserved (by omega)
    exact ⟨h', m', run, reserved⟩

/-- Any other table gets twice as many buckets, if that is a number of 32 bits. -/
theorem Represents.grow (rep : Represents hash h m M)
    (many : h.nBuckets ≤ (h.size <<< 1) % 2 ^ 32) :
    ∃ h' m', h.khResize hash (h.nBuckets + 1) = .ok h' ∧ Reserved hash h h' m' M := by
  have shape := rep.shape
  have buckets := shape.buckets
  have four := shape.four_le
  rw [rep.size_double] at many
  obtain ⟨h', run, result⟩ := khResize_ok rep.standsFor (h.nBuckets + 1)
  by_cases last : m = 31
  · have wrapped : roundedBuckets (h.nBuckets + 1) = 4 := by
      rw [buckets, last]
      decide
    rcases result with ⟨-, rfl⟩ | resized
    · exact ⟨h', m, run, rep, .inr last, rfl, by omega⟩
    · obtain ⟨m', reserved⟩ := resized.reserved (by omega)
      exact ⟨h', m', run, reserved⟩
  · have twice : roundedBuckets (h.nBuckets + 1) = 2 * h.nBuckets := by
      have high := shape.high
      have low := shape.low
      have double := shape.double
      rw [← double]
      exact roundedBuckets_eq (by omega) (by omega) (by omega) (by omega)
    rcases result with ⟨large, rfl⟩ | resized
    · have bound := shape.bound
      have below := acUpperBound_lt four
      have above := le_acUpperBound_double h'.nBuckets
      have load := rep.load.resolve_right last
      have fewer := rep.size_le
      rw [twice] at large
      omega
    · obtain ⟨m', reserved⟩ := resized.reserved (by split at many <;> omega)
      exact ⟨h', m', run, reserved⟩

theorem khReserve_ok (stands : StandsFor hash h M) :
    ∃ h' m, h.khReserve hash = .ok h' ∧ Reserved hash h h' m M := by
  rcases stands with ⟨zeroed, rfl⟩ | ⟨m, rep⟩
  · exact khReserve_first zeroed
  by_cases spare : h.nOccupied < h.upperBound
  · exact ⟨h, m, if_neg (by omega), rep, .inl spare, rfl, by omega⟩
  rw [Khash.khReserve, if_pos (by omega)]
  by_cases few : (h.size <<< 1) % 2 ^ 32 < h.nBuckets
  · rw [if_pos few]
    exact rep.purge few
  · rw [if_neg few]
    exact rep.grow (Nat.le_of_not_lt few)

/-- `site` after `s` steps: the deleted bucket passed last, if any. -/
def Remembers (h : Khash κ υ) (m a s site : Nat) : Prop :=
  (site = h.nBuckets ∧ ∀ r, r < s → h.flags.isDel (place m a r) = false) ∨
    ∃ r, r < s ∧ site = place m a r ∧ h.flags.isDel (place m a r) = true

section Site
variable {a s site : Nat}

omit [DecidableEq κ] in
theorem Remembers.next (remembers : Remembers h m a s site) :
    Remembers h m a (s + 1) (if h.flags.isDel (place m a s) then place m a s else site) := by
  cases del : h.flags.isDel (place m a s) with
  | true => exact .inr ⟨s, Nat.lt_succ_self s, rfl, del⟩
  | false =>
      rcases remembers with ⟨rfl, before⟩ | ⟨r, less, rfl, del⟩
      · refine .inl ⟨rfl, fun r less => ?_⟩
        rcases Nat.lt_succ_iff_lt_or_eq.mp less with earlier | rfl
        · exact before r earlier
        · exact del
      · exact .inr ⟨r, Nat.lt_succ_of_lt less, rfl, del⟩

theorem khPutLoop_ok (shape : Shape h m) (key : κ) : ∀ fuel s site, s < 2 ^ (m + 1) - 1 →
    2 ^ (m + 1) ≤ fuel + s + 1 → (∀ r, r < s → h.Passes key (place m a r)) →
    Remembers h m a s site →
    ∃ out, h.khPutLoop key (place m a 0) fuel (place m a s) s site = .ok out ∧
      ((∃ t site, Halts h m key a t ∧ Remembers h m a t site ∧
        out = if h.flags.isEmpty (place m a t) = true ∧ site ≠ h.nBuckets then site
          else place m a t) ∨
        (∃ site, Circles h key ∧ Remembers h m a (2 ^ (m + 1) - 1) site ∧
          out = if site = h.nBuckets then place m a 0 else site)) := by
  intro fuel
  induction fuel with
  | zero =>
      intro s site within enough
      omega
  | succ fuel ih =>
      intro s site within enough passed remembers
      have inside := shape.place_lt a s
      have allocated := shape.within inside
      obtain ⟨b, run, iff⟩ := shape.passes_ok inside key
      simp only [Khash.khPutLoop, run, ok_bind, shape.nextBucket, acIsdel_ok allocated,
        acIsempty_ok allocated]
      cases b with
      | true =>
          have more := passed_next passed (iff.mp rfl)
          have remembers := remembers.next
          rw [if_pos rfl]
          by_cases full : place m a (s + 1) = place m a 0
          · have around : s + 1 = 2 ^ (m + 1) - 1 :=
              (next_eq_last (Nat.succ_pos s) (by omega)).mp full
            rw [around] at remembers
            refine ⟨_, if_pos full, .inr ⟨_, circles_of_passed (a := a) shape (around ▸ more),
              remembers, ?_⟩⟩
            rw [full]
          · rw [if_neg full]
            have ahead : s + 1 ≠ 2 ^ (m + 1) - 1 := fun around =>
              full ((next_eq_last (Nat.succ_pos s) (by omega)).mpr around)
            exact ih (s + 1) _ (by omega) (by omega) more remembers
      | false =>
          have stops : ¬ h.Passes key (place m a s) := fun passes => by cases iff.mpr passes
          exact ⟨_, rfl, .inl ⟨s, site, ⟨passed, stops⟩, remembers, rfl⟩⟩

end Site

/-- Where `kh_put` puts a key: where it is, or where a search for it will come by. -/
def SiteFor (hash : κ → BitVec 32) (h : Khash κ υ) (m : Nat) (M : κ → Option υ) (key : κ)
    (x : Nat) : Prop :=
  (∃ v, h.entry x = some (key, v)) ∨
    (M key = none ∧ h.entry x = none ∧ Reached h.Used (probe hash m key) x)

omit [DecidableEq κ] in
/-- A table in which every bucket is passed and none is deleted is full. -/
theorem Represents.not_full (rep : Represents hash h m M) (spare : Spare h m)
    (room : Room M key) (circles : Circles h key)
    (undeleted : ∀ i, i < h.nBuckets → h.flags.isDel i = false) : False := by
  have full : ∀ i ∈ Finset.range h.nBuckets, h.entry i ≠ none := by
    intro i inside
    have inside := Finset.mem_range.mp inside
    rw [Ne, Khash.entry_eq_none, not_not]
    exact ⟨inside, (circles i inside).1, undeleted i inside⟩
  have le := rep.stores.card_le rep.size full
  rw [Finset.card_range] at le
  have fewer := rep.size_le
  have below := acUpperBound_lt rep.shape.four_le
  have bound := rep.shape.bound
  rcases spare with less | last
  · omega
  · obtain ⟨n, card, less⟩ := room.resolve_left fun known =>
      known (rep.circles_absent circles)
    have same := card.unique rep.size
    have buckets := rep.shape.buckets
    rw [last] at buckets
    omega

omit [DecidableEq κ] in
/-- A deleted bucket that the search has passed. -/
theorem siteFor_deleted (absent : M key = none) {r t : Nat} (less : r < t)
    (passed : ∀ r, r < t → h.Passes key (probe hash m key r))
    (del : h.flags.isDel (probe hash m key r) = true) :
    SiteFor hash h m M key (probe hash m key r) :=
  .inr ⟨absent, Khash.entry_none_of_del del, r, rfl, fun q before =>
    (passed q (Nat.lt_trans before less)).1⟩

theorem khSite_ok (rep : Represents hash h m M) (spare : Spare h m) (room : Room M key) :
    ∃ x, h.khSite hash key = .ok x ∧ x < h.nBuckets ∧ SiteFor hash h m M key x := by
  have shape := rep.shape
  have inside := shape.place_lt (hash key).toNat
  simp only [Khash.khSite, shape.firstBucket, acIsempty_ok (shape.within (inside 0)), ok_bind]
  cases empty : h.flags.isEmpty (place m (hash key).toNat 0) with
  | true =>
      have halts : Halts h m key (hash key).toNat 0 := by
        refine ⟨fun r less => by omega, fun passes => ?_⟩
        rw [Khash.Passes, Khash.Used, empty] at passes
        cases passes.1
      refine ⟨_, rfl, inside 0, .inr ⟨rep.halts_absent halts empty,
        Khash.entry_none_of_empty empty, 0, rfl, fun r less => by omega⟩⟩
  | false =>
      have enough := shape.four_le
      have double := shape.double
      have start : Remembers h m (hash key).toNat 0 h.nBuckets :=
        .inl ⟨rfl, fun r less => by omega⟩
      obtain ⟨x, run, cases⟩ := khPutLoop_ok shape key (2 * h.nBuckets) 0 h.nBuckets
        (by omega) (by omega) (fun r less => by omega) start
      refine ⟨x, run, ?_⟩
      rcases cases with ⟨t, site, halts, remembers, rfl⟩ | ⟨site, circles, remembers, rfl⟩
      · rcases halts.found_or_empty with ⟨v, here⟩ | empty
        · obtain ⟨-, used, -⟩ := Khash.entry_eq_some.mp here
          rw [if_neg (by simp [used])]
          exact ⟨inside t, .inl ⟨v, here⟩⟩
        · have absent := rep.halts_absent halts empty
          rcases remembers with ⟨rfl, -⟩ | ⟨r, less, rfl, del⟩
          · rw [if_neg (by simp)]
            exact ⟨inside t, .inr ⟨absent, Khash.entry_none_of_empty empty, t, rfl,
              fun r before => (halts.passed r before).1⟩⟩
          · rw [if_pos ⟨empty, Nat.ne_of_lt (inside r)⟩]
            exact ⟨inside r, siteFor_deleted absent less halts.passed del⟩
      · rcases remembers with ⟨rfl, before⟩ | ⟨r, less, rfl, del⟩
        · refine (rep.not_full spare room circles fun i there => ?_).elim
          rw [shape.buckets] at there
          obtain ⟨r, less, rfl⟩ := place_surj (hash key).toNat there
          exact before r (by have := shape.buckets; omega)
        · rw [if_neg (Nat.ne_of_lt (inside r))]
          exact ⟨inside r, siteFor_deleted (rep.circles_absent circles) less
            (fun q _ => circles _ (inside q)) del⟩

/-- Where `kh_put` has put a key. Its value is what the memory holds, if the key is new. -/
structure Found (hash : κ → BitVec 32) (h' : Khash κ υ) (M : κ → Option υ) (key : κ)
    (x ret : Nat) : Prop where
  there : ∃ w, h'.entry x = some (key, w) ∧ StandsFor hash h' (Function.update M key (some w))
  old : ret = 0 ↔ M key ≠ none
  kept : ret = 0 → StandsFor hash h' M

omit [DecidableEq κ] in
theorem Khash.usedBuckets_insert (inside : x < h.nBuckets) (buckets : h'.nBuckets = h.nBuckets)
    (empty : h'.flags.isEmpty = Function.update h.flags.isEmpty x false) :
    h'.usedBuckets = insert x h.usedBuckets := by
  ext i
  rw [Finset.mem_insert, mem_usedBuckets, mem_usedBuckets, Used, Used, buckets, empty]
  by_cases same : i = x
  · simp [same, inside]
  · simp [same]

omit [DecidableEq κ] in
/-- One more bucket is used if the one taken was empty. -/
theorem Represents.occupied_insert (rep : Represents hash h m M) (inside : x < h.nBuckets) :
    (insert x h.usedBuckets).card =
      if h.flags.isEmpty x = true then h.nOccupied + 1 else h.nOccupied := by
  split
  · next unused =>
      rw [Finset.card_insert_of_notMem, rep.occupied]
      rw [Khash.mem_usedBuckets, Khash.Used, unused]
      simp
  · next used =>
      rw [Finset.insert_eq_of_mem, rep.occupied]
      exact Khash.mem_usedBuckets.mpr ⟨inside, Bool.eq_false_iff.mpr used⟩

/-- A new entry at its site. -/
theorem Represents.occupy (rep : Represents hash h m M) (spare : Spare h m)
    (inside : x < h.nBuckets) (absent : M key = none) (vacant : h.entry x = none)
    (reached : Reached h.Used (probe hash m key) x) {flags : KhFlags} {n : Nat}
    (len : flags.len = h.flags.len) (del : flags.isDel = Function.update h.flags.isDel x false)
    (empty : flags.isEmpty = Function.update h.flags.isEmpty x false)
    (count : n = if h.flags.isEmpty x = true then h.nOccupied + 1 else h.nOccupied) :
    let h' : Khash κ υ := { h with
      keys := Function.update h.keys x key, flags := flags, size := h.size + 1, nOccupied := n }
    h'.entry x = some (key, h.vals x) ∧
      Represents hash h' m (Function.update M key (some (h.vals x))) := by
  intro h'
  have here : h'.entry x = some (key, h.vals x) := by
    refine Khash.entry_eq_some.mpr ⟨inside, ?_, ?_, ?_⟩
    · exact (congrFun empty x).trans (Function.update_self ..)
    · exact (congrFun del x).trans (Function.update_self ..)
    · exact congrArg (·, h.vals x) (Function.update_self x key h.keys).symm
  have entries : h'.entry = Function.update h.entry x (some (key, h.vals x)) :=
    Khash.entry_update rfl (fun i ne =>
      ⟨(congrFun empty i).trans (Function.update_of_ne ne ..),
        (congrFun del i).trans (Function.update_of_ne ne ..),
        Function.update_of_ne ne .., rfl⟩) here
  have more : ∀ i, h.Used i → h'.Used i := by
    intro i used
    by_cases same : i = x
    · exact same ▸ (congrFun empty x).trans (Function.update_self ..)
    · exact ((congrFun empty i).trans (Function.update_of_ne same ..)).trans used
  refine ⟨here, rep.shape.keep rfl len rfl rfl, ?_, ?_, ?_, ?_, ?_⟩
  · rw [entries]
    exact rep.stores.add vacant absent (h.vals x)
  · rw [entries]
    exact (rep.probed.mono more).add ((congrFun empty x).trans (Function.update_self ..))
      (reached.mono more) (h.vals x)
  · exact rep.size.add absent (h.vals x)
  · show h'.usedBuckets.card = n
    have used : h'.usedBuckets = insert x h.usedBuckets :=
      Khash.usedBuckets_insert inside rfl empty
    rw [used, rep.occupied_insert inside, count]
  · rcases spare with less | last
    · refine .inl (show n ≤ h.upperBound from ?_)
      split at count <;> omega
    · exact .inr last

theorem khOccupy_ok (rep : Represents hash h m M) (spare : Spare h m) (inside : x < h.nBuckets)
    (site : SiteFor hash h m M key x) :
    ∃ h' ret, h.khOccupy key x = .ok (h', ret) ∧ Found hash h' M key x ret ∧
      h'.nBuckets = h.nBuckets ∧ h.size ≤ h'.size := by
  have shape := rep.shape
  have allocated := shape.within inside
  have writable : x < h.cap := shape.cap ▸ inside
  simp only [Khash.khOccupy, acIsempty_ok allocated, acIsdel_ok allocated, ok_bind,
    Khash.writeKey_ok writable]
  rcases site with ⟨v, here⟩ | ⟨absent, vacant, reached⟩
  · obtain ⟨-, used, undel, -⟩ := Khash.entry_eq_some.mp here
    have stored := rep.stores.lookup here
    have known : M key ≠ none := stored ▸ Option.some_ne_none v
    rw [used, undel]
    refine ⟨h, 0, rfl, ⟨⟨v, here, ?_⟩, by simp [known], fun _ => rep.standsFor⟩, rfl,
      Nat.le_refl _⟩
    rw [← stored, Function.update_eq_self]
    exact rep.standsFor
  · obtain ⟨flags, clear, len, del, empty⟩ := acSetIsbothFalse_ok allocated
    cases unused : h.flags.isEmpty x with
    | true =>
        obtain ⟨there, rep'⟩ := rep.occupy spare inside absent vacant reached len del empty
          (if_pos unused).symm
        refine ⟨_, 1, ?_, ⟨⟨_, there, rep'.standsFor⟩, by simp [absent], (nomatch ·)⟩, rfl,
          Nat.le_succ _⟩
        rw [if_pos rfl, clear]
        rfl
    | false =>
        have deleted : h.flags.isDel x = true := by
          by_contra undel
          exact Khash.entry_eq_none.mp vacant ⟨inside, unused, Bool.eq_false_iff.mpr undel⟩
        obtain ⟨there, rep'⟩ := rep.occupy spare inside absent vacant reached len del empty
          (if_neg (Bool.eq_false_iff.mp unused)).symm
        refine ⟨_, 2, ?_, ⟨⟨_, there, rep'.standsFor⟩, by simp [absent], (nomatch ·)⟩, rfl,
          Nat.le_succ _⟩
        rw [if_neg Bool.false_ne_true, deleted, if_pos rfl, clear]
        rfl

/-- `kh_put` finds the key or adds it, and grows the table as its keys need it. -/
theorem khPut_ok (stands : StandsFor hash h M) (room : Room M key) :
    ∃ h' x ret, h.khPut hash key = .ok (h', x, ret) ∧ Found hash h' M key x ret ∧
      h'.nBuckets ≤ max h.nBuckets (max 4 (4 * h.size)) := by
  obtain ⟨h₁, m, reserve, reserved⟩ := khReserve_ok stands
  obtain ⟨x, search, inside, site⟩ := khSite_ok reserved.represents reserved.spare room
  obtain ⟨h', ret, occupy, found, buckets, -⟩ :=
    khOccupy_ok reserved.represents reserved.spare inside site
  refine ⟨h', x, ret, ?_, found, buckets ▸ reserved.buckets⟩
  simp only [Khash.khPut, reserve, search, occupy, ok_bind, pure_eq_ok]

omit [DecidableEq κ] in
/-- Every bucket of a table without room is taken by another key. -/
theorem Represents.full (rep : Represents hash h m M) (none : ¬ Room M key) :
    m = 31 ∧ h.size = h.nBuckets ∧
      ∀ i, i < h.nBuckets → ∃ k v, h.entry i = some (k, v) ∧ k ≠ key := by
  obtain ⟨absent, many⟩ := not_or.mp none
  have most : 2 ^ m ≤ 2 ^ 31 := Nat.pow_le_pow_right (by decide) rep.shape.high
  have large : 2 ^ 31 ≤ h.size := Nat.le_of_not_lt fun less => many ⟨_, rep.size, less⟩
  have buckets := rep.shape.buckets
  have fewer := rep.size_le
  have taken := rep.occupied_le
  have last : m = 31 := Nat.pow_right_injective (Nat.le_refl 2) (show 2 ^ m = 2 ^ 31 by omega)
  refine ⟨last, by omega, fun i inside => ?_⟩
  have live : ∀ i, i ∈ (Finset.range h.nBuckets).filter (fun i => (h.entry i).isSome = true) ↔
      h.entry i ≠ .none := by
    intro i
    rw [Finset.mem_filter, Option.ne_none_iff_isSome, and_iff_right_iff_imp]
    intro here
    obtain ⟨e, here⟩ := Option.isSome_iff_exists.mp here
    exact Finset.mem_range.mpr (Khash.entry_eq_some.mp here).1
  have count := rep.stores.card_eq rep.size live
  have all : ((Finset.range h.nBuckets).filter fun i => (h.entry i).isSome = true).card =
      (Finset.range h.nBuckets).card := by
    rw [count, Finset.card_range]
    omega
  have here := Finset.card_filter_eq_iff.mp all i (Finset.mem_range.mpr inside)
  obtain ⟨⟨k, v⟩, here⟩ := Option.isSome_iff_exists.mp here
  refine ⟨k, v, here, fun same => absent ?_⟩
  rw [← same, rep.stores.lookup here]
  exact Option.some_ne_none v

omit [DecidableEq κ] in
theorem Represents.full_circles (rep : Represents hash h m M) (none : ¬ Room M key) :
    Circles h key := by
  obtain ⟨-, -, others⟩ := rep.full none
  intro i inside
  obtain ⟨k, v, here, other⟩ := others i inside
  refine ⟨(Khash.entry_eq_some.mp here).2.1, fun w there => other ?_⟩
  exact congrArg Prod.fst (Option.some.inj (here.symm.trans there))

omit [DecidableEq κ] in
/-- With `2 ^ 31` keys `h->size << 1` is 0, and the rehash that this asks for is refused. -/
theorem Represents.khReserve_full (rep : Represents hash h m M) (none : ¬ Room M key) :
    h.khReserve hash = .ok h := by
  obtain ⟨last, size, -⟩ := rep.full none
  have buckets : h.nBuckets = 2 ^ 31 := last ▸ rep.shape.buckets
  have below := acUpperBound_lt rep.shape.four_le
  have fewer := rep.size_le
  have bound := rep.shape.bound
  have same : roundedBuckets (h.nBuckets - 1) = h.nBuckets := by
    rw [buckets]
    exact roundedBuckets_eq (by decide) (by decide) (by decide) (by decide)
  rw [Khash.khReserve, if_pos (by omega), rep.size_double, if_pos (size.trans buckets),
    if_pos (by omega), Khash.khResize, same]
  exact if_pos (by omega)

/-- In a table without room the search goes around once, to where it started. -/
theorem Represents.khSite_full (rep : Represents hash h m M) (none : ¬ Room M key) :
    h.khSite hash key = .ok (place m (hash key).toNat 0) := by
  have shape := rep.shape
  have inside := shape.place_lt (hash key).toNat
  have circles := rep.full_circles none
  obtain ⟨-, -, others⟩ := rep.full none
  have used : h.flags.isEmpty (place m (hash key).toNat 0) = false := (circles _ (inside 0)).1
  have enough := shape.four_le
  have double := shape.double
  obtain ⟨x, loop, cases⟩ := khPutLoop_ok (a := (hash key).toNat) shape key
    (2 * h.nBuckets) 0 h.nBuckets (by omega) (by omega) (fun r less => by omega)
    (.inl ⟨rfl, fun r less => by omega⟩)
  have first : x = place m (hash key).toNat 0 := by
    rcases cases with ⟨t, site, halts, -⟩ | ⟨site, -, remembers, rfl⟩
    · exact absurd (circles _ (inside t)) halts.stops
    · rcases remembers with ⟨rfl, -⟩ | ⟨r, -, -, del⟩
      · exact if_pos rfl
      · obtain ⟨l, w, there, -⟩ := others _ (inside r)
        rw [Khash.entry_none_of_del del] at there
        cases there
  simp only [Khash.khSite, shape.firstBucket, acIsempty_ok (shape.within (inside 0)), ok_bind,
    used]
  exact first ▸ loop

/-- What `kh_put` does with a key that there is no room for: the table is not resized, and the
bucket of another key is handed out as if it were the key's own. -/
structure Refuses (hash : κ → BitVec 32) (h : Khash κ υ) (key : κ) : Prop where
  buckets : h.nBuckets = 2 ^ 31
  keys : h.size = 2 ^ 31
  kept : h.khReserve hash = .ok h
  other : ∃ x k v, h.khPut hash key = .ok (h, x, 0) ∧ h.entry x = some (k, v) ∧ k ≠ key

theorem khPut_full (stands : StandsFor hash h M) (none : ¬ Room M key) : Refuses hash h key := by
  rcases stands with ⟨-, rfl⟩ | ⟨m, rep⟩
  · exact absurd (.inr ⟨0, .empty, by decide⟩) none
  have inside := rep.shape.place_lt (hash key).toNat 0
  have allocated := rep.shape.within inside
  obtain ⟨last, size, others⟩ := rep.full none
  have buckets : h.nBuckets = 2 ^ 31 := last ▸ rep.shape.buckets
  obtain ⟨k, v, here, other⟩ := others _ inside
  obtain ⟨-, used, undel, -⟩ := Khash.entry_eq_some.mp here
  refine ⟨buckets, size.trans buckets, rep.khReserve_full none, _, k, v, ?_, here, other⟩
  simp only [Khash.khPut, rep.khReserve_full none, ok_bind, rep.khSite_full none, Khash.khOccupy,
    acIsempty_ok allocated, acIsdel_ok allocated, used, undel]
  rfl

end Put

theorem StandsFor.of_entry (stands : StandsFor hash h M) {e : κ × υ} (here : h.entry x = some e) :
    ∃ m, Represents hash h m M := by
  rcases stands with ⟨zeroed, -⟩ | rep
  · have inside := (Khash.entry_eq_some.mp here).1
    rw [zeroed.buckets] at inside
    cases inside
  · exact rep

section Change
variable [DecidableEq κ]

/-- `kh_val(h, x) = v` -/
theorem writeVal_assigns (stands : StandsFor hash h M) {w : υ} (here : h.entry x = some (key, w))
    (v : υ) : ∃ h', h.writeVal x v = .ok h' ∧ h'.nBuckets = h.nBuckets ∧
      StandsFor hash h' (Function.update M key (some v)) := by
  obtain ⟨m, rep⟩ := stands.of_entry here
  obtain ⟨inside, used, undel, same⟩ := Khash.entry_eq_some.mp here
  let h' : Khash κ υ := { h with vals := Function.update h.vals x v }
  have unmoved : key = h.keys x := congrArg Prod.fst same
  have there : h'.entry x = some (key, v) :=
    Khash.entry_eq_some.mpr
      ⟨inside, used, undel, Prod.ext unmoved (Function.update_self x v h.vals).symm⟩
  have entries : h'.entry = Function.update h.entry x (some (key, v)) :=
    Khash.entry_update rfl (fun i ne => ⟨rfl, rfl, rfl, Function.update_of_ne ne ..⟩) there
  refine ⟨h', Khash.writeVal_ok (rep.shape.cap ▸ inside) v, rfl,
    .inr ⟨m, rep.shape.keep rfl rfl rfl rfl, ?_, ?_, ?_, rep.occupied, rep.load⟩⟩
  · rw [entries]
    exact rep.stores.assign here v
  · rw [entries]
    exact rep.probed.add used (rep.probed.reached x key w here) v
  · exact rep.size.assign (rep.stores.lookup here) v

/-- `kh_del` removes the key that is in the bucket, if any. -/
theorem khDel_ok (stands : StandsFor hash h M) (within : x ≤ h.nBuckets) :
    ∃ h', h.khDel x = .ok h' ∧ h'.nBuckets = h.nBuckets ∧
      ((∃ key v, h.entry x = some (key, v) ∧
        StandsFor hash h' (Function.update M key none)) ∨ (h.entry x = none ∧ h' = h)) := by
  rcases Nat.eq_or_lt_of_le within with rfl | inside
  · exact ⟨h, if_pos rfl, rfl, .inr ⟨Khash.entry_eq_none.mpr fun live =>
      Nat.lt_irrefl _ live.1, rfl⟩⟩
  obtain ⟨-, -, flags, -⟩ := stands.ready
  have allocated := Nat.lt_of_lt_of_le inside flags
  simp only [Khash.khDel, if_neg (Nat.ne_of_lt inside), acIseither_ok allocated, ok_bind]
  have exist := Khash.entry_isSome inside
  cases here : h.entry x with
  | none =>
      rw [here, Option.isSome_none, eq_comm, Bool.not_eq_false'] at exist
      rw [exist, if_pos rfl]
      exact ⟨h, rfl, rfl, .inr ⟨rfl, rfl⟩⟩
  | some e =>
      rw [here, Option.isSome_some, eq_comm, Bool.not_eq_true'] at exist
      obtain ⟨m, rep⟩ := stands.of_entry here
      obtain ⟨flags, mark, len, del, empty⟩ := acSetIsdelTrue_ok allocated
      let h' : Khash κ υ := { h with flags := flags, size := h.size - 1 }
      have entries : h'.entry = Function.update h.entry x none :=
        Khash.entry_mark rfl del empty fun _ _ => ⟨rfl, rfl⟩
      have used : h'.Used = h.Used := funext fun i => by
        rw [Khash.Used, Khash.Used, congrFun empty i]
      refine ⟨h', ?_, rfl, .inl ⟨e.1, e.2, rfl, .inr ⟨m, rep.shape.keep rfl len rfl rfl, ?_, ?_,
        ?_, ?_, rep.load⟩⟩⟩
      · rw [exist, if_neg Bool.false_ne_true, mark]
        rfl
      · rw [entries]
        exact rep.stores.remove here
      · rw [entries, used]
        exact rep.probed.remove x
      · exact rep.size.remove (rep.stores.lookup here)
      · refine Eq.trans (congrArg Finset.card (Finset.ext fun i => ?_)) rep.occupied
        rw [Khash.mem_usedBuckets, Khash.mem_usedBuckets, used]

end Change

theorem khClear_ok (stands : StandsFor hash h M) :
    ∃ h', h.khClear = .ok h' ∧ h'.nBuckets = h.nBuckets ∧ StandsFor hash h' fun _ => none := by
  rcases stands with ⟨zeroed, rfl⟩ | ⟨m, rep⟩
  · exact ⟨h, if_pos zeroed.flags, rfl, .inl ⟨zeroed, rfl⟩⟩
  have shape := rep.shape
  have some_words : h.flags.len ≠ 0 := by
    rw [shape.flags]
    exact Nat.ne_of_gt (acFsize_pos _)
  obtain ⟨flags, fill, len, all⟩ := fill_ok h.flags
  let h' : Khash κ υ := { h with flags := flags, size := 0, nOccupied := 0 }
  have empty : ∀ i, i < h.nBuckets → flags.isEmpty i = true := fun i inside =>
    (all i (shape.within inside)).1
  have entries : h'.entry = fun _ => none := funext fun i =>
    Khash.entry_eq_none.mpr fun live => by
      have unused := empty i live.1
      rw [live.2.1] at unused
      cases unused
  refine ⟨h', ?_, rfl, .inr ⟨m, shape.keep rfl len rfl rfl, ?_, ?_, .empty, ?_,
    .inl (Nat.zero_le _)⟩⟩
  · rw [Khash.khClear, if_neg some_words, ← shape.flags, fill]
    rfl
  · rw [entries]
    exact .empty
  · rw [entries]
    exact .empty
  · refine Finset.card_eq_zero.mpr (Finset.filter_eq_empty_iff.mpr fun i inside => ?_)
    rw [empty i (Finset.mem_range.mp inside)]
    simp

/-- The entries of the map, each once. -/
structure Lists (l : List (κ × υ)) (M : κ → Option υ) : Prop where
  nodup : (l.map Prod.fst).Nodup
  mem_iff : ∀ k v, (k, v) ∈ l ↔ M k = some v

theorem foreachFrom_ok (flags : h.nBuckets ≤ 16 * h.flags.len) (cap : h.nBuckets ≤ h.cap) :
    ∀ rest i, i + rest = h.nBuckets →
      h.foreachFrom rest i = .ok ((List.range' i rest).filterMap h.entry) := by
  intro rest
  induction rest with
  | zero => exact fun i ends => rfl
  | succ rest ih =>
      intro i ends
      have inside : i < h.nBuckets := by omega
      have allocated : i < h.cap := Nat.lt_of_lt_of_le inside cap
      simp only [Khash.foreachFrom, Khash.khExist_ok inside (Nat.lt_of_lt_of_le inside flags),
        ok_bind, Khash.readKey_ok allocated, Khash.khVal_ok allocated, ih (i + 1) (by omega),
        List.range'_succ]
      cases here : h.entry i with
      | none => rw [List.filterMap_cons_none here, if_neg (by simp)]
      | some e =>
          obtain ⟨-, -, -, rfl⟩ := Khash.entry_eq_some.mp here
          rw [List.filterMap_cons_some here, if_pos (Option.isSome_some ..)]
          rfl

/-- `kh_foreach` comes to every key once, with its value. -/
theorem khForeach_ok (stands : StandsFor hash h M) :
    ∃ l, h.khForeach = .ok l ∧ Lists l M := by
  obtain ⟨stores, -, flags, cap⟩ := stands.ready
  refine ⟨_, foreachFrom_ok flags (Nat.le_of_eq cap) h.nBuckets 0 (Nat.zero_add _), ?_, ?_⟩
  · rw [List.map_filterMap]
    refine List.Nodup.filterMap ?_ List.nodup_range'
    intro b c k first second
    simp only [Option.mem_def, Option.map_eq_some_iff] at first second
    obtain ⟨⟨j, v⟩, here, rfl⟩ := first
    obtain ⟨⟨l, w⟩, there, same⟩ := second
    cases same
    exact stores.once b c _ v w here there
  · intro k v
    rw [List.mem_filterMap, stores.entry_iff]
    constructor
    · rintro ⟨b, -, here⟩
      exact ⟨b, here⟩
    · rintro ⟨b, here⟩
      refine ⟨b, ?_, here⟩
      rw [List.mem_range'_1]
      have inside := (Khash.entry_eq_some.mp here).1
      omega

end CThread.Hash
