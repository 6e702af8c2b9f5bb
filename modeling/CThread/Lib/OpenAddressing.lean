import Mathlib.Data.Fintype.Card
import Mathlib.Logic.Function.Basic

/-!
Tables with open addressing.

A map is stored as entries at places. Each key has a path of places, and a search for the key
follows its path up to the first place that has never been used. An entry is found when all
places before it on its path are used, so a place may be emptied of its entry but must stay
used. The paths are arbitrary here, and the places too.

To rehash, the entries are moved one by one from the old places to new ones, with one entry in
hand at most. Where each entry is on the way does not matter for what is stored.
-/
namespace OpenAddressing
variable {κ υ β : Type*}

/-- The entries are those of the map, each at one place. -/
structure Stores (entry : β → Option (κ × υ)) (M : κ → Option υ) : Prop where
  entry_iff : ∀ k v, M k = some v ↔ ∃ b, entry b = some (k, v)
  once : ∀ b c k v w, entry b = some (k, v) → entry c = some (k, w) → b = c

variable {entry : β → Option (κ × υ)} {M : κ → Option υ} {b c : β} {k : κ} {v w : υ}

theorem Stores.lookup (stores : Stores entry M) (here : entry b = some (k, v)) :
    M k = some v :=
  (stores.entry_iff k v).mpr ⟨b, here⟩

theorem Stores.empty : Stores (fun _ : β => none) (fun _ : κ => (none : Option υ)) where
  entry_iff k v := by simp
  once b c k v w here := by cases here

/-- The map has `n` keys. -/
def HasCard (M : κ → Option υ) (n : ℕ) : Prop :=
  ∃ dom : Finset κ, (∀ k, k ∈ dom ↔ M k ≠ none) ∧ dom.card = n

section Card
variable {n : ℕ}

theorem HasCard.empty : HasCard (fun _ : κ => (none : Option υ)) 0 :=
  ⟨∅, fun k => by simp, rfl⟩

theorem HasCard.unique {n' : ℕ} (card : HasCard M n) (card' : HasCard M n') : n = n' := by
  obtain ⟨dom, keys, rfl⟩ := card
  obtain ⟨dom', keys', rfl⟩ := card'
  exact congrArg Finset.card (Finset.ext fun k => (keys k).trans (keys' k).symm)

/-- No more places have an entry than there are keys. -/
theorem Stores.card_le (stores : Stores entry M) (card : HasCard M n) {places : Finset β}
    (full : ∀ b ∈ places, entry b ≠ none) : places.card ≤ n := by
  obtain ⟨dom, keys, rfl⟩ := card
  have found : ∀ b : places, ∃ e, entry b = some e := fun b =>
    Option.ne_none_iff_exists'.mp (full b b.2)
  choose e at_b using found
  have inDom : ∀ b : places, (e b).1 ∈ dom := fun b => by
    refine (keys _).mpr ?_
    rw [stores.lookup (b := (b : β)) (k := (e b).1) (v := (e b).2) (at_b b)]
    exact Option.some_ne_none _
  have injective : Function.Injective fun b : places => (⟨(e b).1, inDom b⟩ : dom) := by
    intro b c same
    have key : (e b).1 = (e c).1 := congrArg Subtype.val same
    refine Subtype.ext (stores.once b c (e b).1 (e b).2 (e c).2 (at_b b) ?_)
    rw [key]
    exact at_b c
  have le := Fintype.card_le_of_injective _ injective
  rwa [Fintype.card_coe, Fintype.card_coe] at le

theorem Stores.card_eq (stores : Stores entry M) (card : HasCard M n) {places : Finset β}
    (full : ∀ b, b ∈ places ↔ entry b ≠ none) : places.card = n := by
  refine Nat.le_antisymm (stores.card_le card fun b inside => (full b).mp inside) ?_
  obtain ⟨dom, keys, rfl⟩ := card
  have found : ∀ k : dom, ∃ b v, entry b = some ((k : κ), v) := fun k => by
    obtain ⟨v, stored⟩ := Option.ne_none_iff_exists'.mp ((keys k).mp k.2)
    obtain ⟨b, here⟩ := (stores.entry_iff k v).mp stored
    exact ⟨b, v, here⟩
  choose b v at_b using found
  have inside : ∀ k : dom, b k ∈ places := fun k => by
    rw [full, at_b k]
    exact Option.some_ne_none _
  have injective : Function.Injective fun k : dom => (⟨b k, inside k⟩ : places) := by
    intro k j same
    have place : b k = b j := congrArg Subtype.val same
    have entries := (at_b k).symm.trans ((congrArg entry place).trans (at_b j))
    exact Subtype.ext (congrArg Prod.fst (Option.some.inj entries))
  have le := Fintype.card_le_of_injective _ injective
  rwa [Fintype.card_coe, Fintype.card_coe] at le

theorem HasCard.pos (card : HasCard M n) (stored : M k = some v) : 0 < n := by
  obtain ⟨dom, keys, rfl⟩ := card
  exact Finset.card_pos.mpr ⟨k, (keys k).mpr (stored ▸ Option.some_ne_none v)⟩

variable [DecidableEq κ]

theorem HasCard.add (card : HasCard M n) (new : M k = none) (v : υ) :
    HasCard (Function.update M k (some v)) (n + 1) := by
  obtain ⟨dom, keys, rfl⟩ := card
  have outside : k ∉ dom := fun inside => (keys k).mp inside new
  refine ⟨insert k dom, fun j => ?_, Finset.card_insert_of_notMem outside⟩
  by_cases same : j = k
  · subst same
    simp
  · rw [Finset.mem_insert, Function.update_of_ne same, keys j]
    simp [same]

theorem HasCard.remove (card : HasCard M n) (stored : M k = some v) :
    HasCard (Function.update M k none) (n - 1) := by
  obtain ⟨dom, keys, rfl⟩ := card
  have inside : k ∈ dom := (keys k).mpr (stored ▸ Option.some_ne_none v)
  refine ⟨dom.erase k, fun j => ?_, Finset.card_erase_of_mem inside⟩
  by_cases same : j = k
  · subst same
    simp
  · rw [Finset.mem_erase, Function.update_of_ne same, keys j]
    simp [same]

theorem HasCard.assign (card : HasCard M n) (stored : M k = some v) (w : υ) :
    HasCard (Function.update M k (some w)) n := by
  have again := (card.remove stored).add (Function.update_self k none M) w
  rwa [Function.update_idem, Nat.sub_add_cancel (card.pos stored)] at again

end Card

section Moves
variable [DecidableEq β] [DecidableEq κ]

/-- A new key at a place without an entry. -/
theorem Stores.add (stores : Stores entry M) (free : entry b = none) (new : M k = none)
    (v : υ) : Stores (Function.update entry b (some (k, v))) (Function.update M k (some v)) := by
  have absent : ∀ c w, entry c ≠ some (k, w) := fun c w here => by
    rw [stores.lookup here] at new
    cases new
  have elsewhere : ∀ c j w, Function.update entry b (some (k, v)) c = some (j, w) →
      (c = b ∧ j = k ∧ w = v) ∨ (c ≠ b ∧ j ≠ k ∧ entry c = some (j, w)) := by
    intro c j w here
    by_cases same : c = b
    · subst same
      rw [Function.update_self] at here
      cases here
      exact .inl ⟨rfl, rfl, rfl⟩
    · rw [Function.update_of_ne same] at here
      exact .inr ⟨same, fun key => absent c w (key ▸ here), here⟩
  constructor
  · intro j w
    constructor
    · intro stored
      by_cases key : j = k
      · subst key
        rw [Function.update_self] at stored
        cases stored
        exact ⟨b, Function.update_self ..⟩
      · rw [Function.update_of_ne key] at stored
        obtain ⟨c, here⟩ := (stores.entry_iff j w).mp stored
        refine ⟨c, (Function.update_of_ne ?_ ..).trans here⟩
        intro same
        rw [same, free] at here
        cases here
    · intro ⟨c, here⟩
      rcases elsewhere c j w here with ⟨-, rfl, rfl⟩ | ⟨-, other, here⟩
      · exact Function.update_self ..
      · exact (Function.update_of_ne other ..).trans (stores.lookup here)
  · intro c d j w x first second
    rcases elsewhere c j w first with ⟨rfl, rfl, -⟩ | ⟨-, other, first⟩
    · rcases elsewhere d _ x second with ⟨rfl, -, -⟩ | ⟨-, other, -⟩
      · rfl
      · exact absurd rfl other
    · rcases elsewhere d j x second with ⟨-, key, -⟩ | ⟨-, -, second⟩
      · exact absurd key other
      · exact stores.once c d j w x first second

theorem Stores.remove (stores : Stores entry M) (here : entry b = some (k, v)) :
    Stores (Function.update entry b none) (Function.update M k none) := by
  have elsewhere : ∀ c j w, Function.update entry b none c = some (j, w) →
      c ≠ b ∧ j ≠ k ∧ entry c = some (j, w) := by
    intro c j w there
    by_cases same : c = b
    · subst same
      rw [Function.update_self] at there
      cases there
    · rw [Function.update_of_ne same] at there
      refine ⟨same, fun key => ?_, there⟩
      subst key
      exact same (stores.once c b j w v there here)
  constructor
  · intro j w
    constructor
    · intro stored
      by_cases key : j = k
      · subst key
        rw [Function.update_self] at stored
        cases stored
      · rw [Function.update_of_ne key] at stored
        obtain ⟨c, there⟩ := (stores.entry_iff j w).mp stored
        refine ⟨c, (Function.update_of_ne ?_ ..).trans there⟩
        intro same
        rw [same, here] at there
        cases there
        exact key rfl
    · intro ⟨c, there⟩
      obtain ⟨-, other, there⟩ := elsewhere c j w there
      exact (Function.update_of_ne other ..).trans (stores.lookup there)
  · intro c d j w x first second
    exact stores.once c d j w x (elsewhere c j w first).2.2 (elsewhere d j x second).2.2

/-- Another value for the key at a place. -/
theorem Stores.assign (stores : Stores entry M) (here : entry b = some (k, v)) (w : υ) :
    Stores (Function.update entry b (some (k, w))) (Function.update M k (some w)) := by
  have again := (stores.remove here).add (Function.update_self b none entry)
    (Function.update_self k none M) w
  rwa [Function.update_idem, Function.update_idem] at again

theorem Stores.move (stores : Stores entry M) (here : entry b = some (k, v))
    (free : entry c = none) :
    Stores (Function.update (Function.update entry b none) c (some (k, v))) M := by
  have vacant : Function.update entry b none c = none := by
    by_cases same : c = b
    · subst same
      exact Function.update_self ..
    · exact (Function.update_of_ne same ..).trans free
  have moved := (stores.remove here).add vacant (Function.update_self k none M) v
  rwa [Function.update_idem, ← stores.lookup here, Function.update_eq_self] at moved

end Moves

/-- The place lies on the path, and all places before it are used. -/
def Reached (used : β → Prop) (path : ℕ → β) (b : β) : Prop :=
  ∃ s, path s = b ∧ ∀ r, r < s → used (path r)

theorem Reached.mono {used used' : β → Prop} {path : ℕ → β} (reached : Reached used path b)
    (more : ∀ c, used c → used' c) : Reached used' path b := by
  obtain ⟨s, at_b, before⟩ := reached
  exact ⟨s, at_b, fun r less => more _ (before r less)⟩

/-- Every entry is found on the path of its key. -/
structure Probed (path : κ → ℕ → β) (used : β → Prop) (entry : β → Option (κ × υ)) :
    Prop where
  inUse : ∀ b e, entry b = some e → used b
  reached : ∀ b k v, entry b = some (k, v) → Reached used (path k) b

section Probed
variable {path : κ → ℕ → β} {used used' : β → Prop}

theorem Probed.mono (probed : Probed path used entry) (more : ∀ c, used c → used' c) :
    Probed path used' entry where
  inUse b e here := more b (probed.inUse b e here)
  reached b k v here := (probed.reached b k v here).mono more

theorem Probed.empty : Probed path used (fun _ => (none : Option (κ × υ))) where
  inUse b e here := by cases here
  reached b k v here := by cases here

variable [DecidableEq β]

theorem Probed.add (probed : Probed path used entry) (here : used b)
    (reached : Reached used (path k) b) (v : υ) :
    Probed path used (Function.update entry b (some (k, v))) := by
  constructor
  · intro c e there
    by_cases same : c = b
    · exact same ▸ here
    · rw [Function.update_of_ne same] at there
      exact probed.inUse c e there
  · intro c j w there
    by_cases same : c = b
    · subst same
      rw [Function.update_self] at there
      cases there
      exact reached
    · rw [Function.update_of_ne same] at there
      exact probed.reached c j w there

/-- The place stays used. -/
theorem Probed.remove (probed : Probed path used entry) (b : β) :
    Probed path used (Function.update entry b none) := by
  have still : ∀ c e, Function.update entry b none c = some e → entry c = some e := by
    intro c e there
    by_cases same : c = b
    · subst same
      rw [Function.update_self] at there
      cases there
    · rwa [Function.update_of_ne same] at there
  exact ⟨fun c e there => probed.inUse c e (still c e there),
    fun c j w there => probed.reached c j w (still c (j, w) there)⟩

omit [DecidableEq β] in
/-- A search that comes to a place never used has not missed the key. -/
theorem Probed.absent (probed : Probed path used entry) (stores : Stores entry M) {s : ℕ}
    (unused : ¬ used (path k s)) (passed : ∀ r, r < s → ∀ v, entry (path k r) ≠ some (k, v)) :
    M k = none := by
  cases stored : M k with
  | none => rfl
  | some v =>
      obtain ⟨b, here⟩ := (stores.entry_iff k v).mp stored
      obtain ⟨t, at_b, before⟩ := probed.reached b k v here
      rcases Nat.lt_trichotomy s t with earlier | same | later
      · exact absurd (before s earlier) unused
      · subst same
        exact absurd (probed.inUse b _ here) (at_b ▸ unused)
      · exact absurd (at_b ▸ here) (passed t later v)

end Probed

/-- Where an entry is during a rehash. -/
inductive Site (β : Type*)
  | pending (b : β)
  | placed (b : β)
  | carried
  deriving DecidableEq

def siteEntry (pending placed : β → Option (κ × υ)) (carried : Option (κ × υ)) :
    Site β → Option (κ × υ)
  | .pending b => pending b
  | .placed b => placed b
  | .carried => carried

section Rehash
variable {pending placed : β → Option (κ × υ)} {e : κ × υ}

theorem Stores.start (stores : Stores entry M) :
    Stores (siteEntry entry (fun _ => none) none) M where
  entry_iff k v := by
    rw [stores.entry_iff]
    refine ⟨fun ⟨b, here⟩ => ⟨.pending b, here⟩, fun ⟨site, here⟩ => ?_⟩
    cases site with
    | pending b => exact ⟨b, here⟩
    | placed b => cases here
    | carried => cases here
  once b c k v w first second := by
    cases b with
    | pending b =>
        cases c with
        | pending c => exact congrArg Site.pending (stores.once b c k v w first second)
        | placed c => cases second
        | carried => cases second
    | placed b => cases first
    | carried => cases first

theorem Stores.finish (stores : Stores (siteEntry pending placed none) M)
    (none : ∀ b, pending b = none) : Stores placed M where
  entry_iff k v := by
    rw [stores.entry_iff]
    refine ⟨fun ⟨site, here⟩ => ?_, fun ⟨b, here⟩ => ⟨.placed b, here⟩⟩
    cases site with
    | pending b => cases (none b).symm.trans here
    | placed b => exact ⟨b, here⟩
    | carried => cases here
  once b c k v w first second :=
    Site.placed.inj (stores.once (.placed b) (.placed c) k v w first second)

variable [DecidableEq β] [DecidableEq κ]

theorem Stores.pick (stores : Stores (siteEntry pending placed none) M)
    (here : pending b = some e) :
    Stores (siteEntry (Function.update pending b none) placed (some e)) M := by
  have moved := stores.move (b := Site.pending b) (c := .carried) here rfl
  refine cast (congrArg (fun entries => Stores entries M) (funext fun site => ?_)) moved
  cases site with
  | pending c =>
      by_cases same : c = b
      · subst same
        simp [siteEntry]
      · simp [siteEntry, same]
  | placed c => simp [siteEntry]
  | carried => simp [siteEntry]

theorem Stores.place (stores : Stores (siteEntry pending placed (some e)) M)
    (free : placed b = none) :
    Stores (siteEntry pending (Function.update placed b (some e)) none) M := by
  have moved := stores.move (b := Site.carried) (c := .placed b) rfl free
  refine cast (congrArg (fun entries => Stores entries M) (funext fun site => ?_)) moved
  cases site with
  | pending c => simp [siteEntry]
  | placed c =>
      by_cases same : c = b
      · subst same
        simp [siteEntry]
      · simp [siteEntry, same]
  | carried => simp [siteEntry]

omit [DecidableEq κ] in
/-- With an entry in hand, the new places that are taken are fewer than the keys. -/
theorem Stores.placed_lt (stores : Stores (siteEntry pending placed (some e)) M) {n : ℕ}
    (card : HasCard M n) {places : Finset β} (full : ∀ b ∈ places, placed b ≠ none) :
    places.card < n := by
  let new : β ↪ Site β := ⟨Site.placed, fun _ _ => Site.placed.inj⟩
  have taken : ∀ site ∈ insert Site.carried (places.map new),
      siteEntry pending placed (some e) site ≠ none := by
    intro site inside
    rcases Finset.mem_insert.mp inside with rfl | inside
    · exact Option.some_ne_none e
    · obtain ⟨b, member, rfl⟩ := Finset.mem_map.mp inside
      exact full b member
  have outside : Site.carried ∉ places.map new := by simp [new]
  have le := stores.card_le card taken
  rwa [Finset.card_insert_of_notMem outside, Finset.card_map] at le

end Rehash

end OpenAddressing
