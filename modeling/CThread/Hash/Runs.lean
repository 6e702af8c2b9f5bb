import CThread.Hash.Operations
import CThread.Lib.Runs

/-!
Whole runs of a hash table from `kh_init`, against a map.

Keys are added, changed, looked up and removed, the table is cleared, resized and iterated
over, in any order. The hash function is arbitrary, and so is what the memory holds at first.
-/
namespace CThread.Hash
open Faults OpenAddressing GuardedRuns

/-- `insert` sets the value of a new key only, and `remove` looks the bucket of its key up
first. -/
inductive KhOp (κ υ : Type)
  | insert (key : κ) (v : υ)
  | assign (key : κ) (v : υ)
  | get (key : κ)
  | remove (key : κ)
  | clear
  | resize (newNBuckets : Nat)
  | foreach

inductive KhOutput (κ υ : Type)
  | done
  | inserted (new : Bool) (v : υ)
  | found (v : Option υ)
  | entries (l : List (κ × υ))

variable {κ υ : Type} [DecidableEq κ]

def khStep (hash : κ → BitVec 32) (h : Khash κ υ) :
    KhOp κ υ → Except KhFault (Khash κ υ × KhOutput κ υ)
  | .insert key v => do
      let (h, x, ret) ← h.khPut hash key
      if ret = 0 then
        let v ← h.khVal x
        return (h, .inserted false v)
      else
        let h ← h.writeVal x v
        return (h, .inserted true v)
  | .assign key v => do
      let (h, x, _) ← h.khPut hash key
      let h ← h.writeVal x v
      return (h, .done)
  | .get key => do
      let x ← h.khGet hash key
      if x = h.khEnd then return (h, .found none)
      else
        let v ← h.khVal x
        return (h, .found (some v))
  | .remove key => do
      let x ← h.khGet hash key
      if x = h.khEnd then return (h, .done)
      else
        let h ← h.khDel x
        return (h, .done)
  | .clear => do
      let h ← h.khClear
      return (h, .done)
  | .resize n => do
      let h ← h.khResize hash n
      return (h, .done)
  | .foreach => do
      let l ← h.khForeach
      return (h, .entries l)

def khMachine (hash : κ → BitVec 32) :
    Machine (Khash κ υ) (KhOp κ υ) (KhOutput κ υ) KhFault := ⟨khStep hash⟩

/-- What the operations do to a map. -/
def mapNext (M : κ → Option υ) : KhOp κ υ → KhOutput κ υ → κ → Option υ
  | .insert key v, _ => Function.update M key (some ((M key).getD v))
  | .assign key v, _ => Function.update M key (some v)
  | .remove key, _ => Function.update M key none
  | .clear, _ => fun _ => none
  | _, _ => M

def MapLegal (M : κ → Option υ) : KhOp κ υ → KhOutput κ υ → Prop
  | .insert key v, o => o = .inserted (M key).isNone ((M key).getD v)
  | .get key, o => o = .found (M key)
  | .foreach, .entries l => Lists l M
  | .foreach, _ => False
  | _, o => o = .done

/-- The map that a run leads to. -/
def mapOf (tr : Trace (KhOp κ υ) (KhOutput κ υ)) : κ → Option υ :=
  monitor mapNext (fun _ => none) tr

/-- A new key is put into a table of fewer than `2 ^ 31` keys. -/
def KhAdmits : Guard (Khash κ υ) (KhOp κ υ) (KhOutput κ υ) := fun tr _ op =>
  match op with
  | .insert key _ | .assign key _ => Room (mapOf tr) key
  | _ => True

/-- The table grows for its keys only: for `n` keys to at most `4 * n` buckets. -/
def Grows (h h' : Khash κ υ) : Prop := h'.nBuckets ≤ max h.nBuckets (max 4 (4 * h.size))

/-- What an operation does to the number of buckets. -/
def KhOp.Sized (h h' : Khash κ υ) : KhOp κ υ → Prop
  | .insert _ _ | .assign _ _ => Grows h h'
  | .resize _ => True
  | _ => h'.nBuckets = h.nBuckets

variable {hash : κ → BitVec 32} {h h' : Khash κ υ} {M : κ → Option υ} {key : κ} {v : υ} {x : Nat}
  {op : KhOp κ υ}

/-- What an operation does: it ends, answers as the map does and stands for what it should. -/
def KhStepOk (hash : κ → BitVec 32) (h : Khash κ υ) (M : κ → Option υ) (op : KhOp κ υ) : Prop :=
  ∃ h' o, khStep hash h op = .ok (h', o) ∧ MapLegal M op o ∧ StandsFor hash h' (mapNext M op o) ∧
    op.Sized h h'

omit [DecidableEq κ] in
theorem StandsFor.khVal_ok (stands : StandsFor hash h M) (here : h.entry x = some (key, v)) :
    h.khVal x = .ok v := by
  obtain ⟨m, rep⟩ := stands.of_entry here
  obtain ⟨inside, -, -, same⟩ := Khash.entry_eq_some.mp here
  rw [Khash.khVal_ok (rep.shape.cap ▸ inside), (Prod.mk.inj same).2]

omit [DecidableEq κ] in
theorem StandsFor.lookup (stands : StandsFor hash h M) (here : h.entry x = some (key, v)) :
    M key = some v := stands.ready.1.lookup here

omit [DecidableEq κ] in
theorem Khash.ne_khEnd {e : κ × υ} (here : h.entry x = some e) : x ≠ h.khEnd :=
  Nat.ne_of_lt (Khash.entry_eq_some.mp here).1

theorem insert_ok (stands : StandsFor hash h M) (room : Room M key) (v : υ) :
    KhStepOk hash h M (.insert key v) := by
  obtain ⟨h₁, x, ret, put, found, grows⟩ := khPut_ok stands room
  obtain ⟨w, here, stands₁⟩ := found.there
  by_cases old : ret = 0
  · have stored := (found.kept old).lookup here
    refine ⟨h₁, .inserted false w, ?_, ?_, ?_, grows⟩
    · simp only [khStep, put, ok_bind, if_pos old, stands₁.khVal_ok here, pure_eq_ok]
    · rw [MapLegal, stored]
      rfl
    · rw [mapNext, stored]
      exact stands₁
  · have new : M key = none := not_not.mp fun known => old (found.old.mpr known)
    obtain ⟨h', write, buckets, stands'⟩ := writeVal_assigns stands₁ here v
    rw [Function.update_idem] at stands'
    refine ⟨h', .inserted true v, ?_, ?_, ?_, ?_⟩
    · simp only [khStep, put, ok_bind, if_neg old, write, pure_eq_ok]
    · rw [MapLegal, new]
      rfl
    · rw [mapNext, new]
      exact stands'
    · exact (Nat.le_of_eq buckets).trans grows

theorem assign_ok (stands : StandsFor hash h M) (room : Room M key) (v : υ) :
    KhStepOk hash h M (.assign key v) := by
  obtain ⟨h₁, x, ret, put, found, grows⟩ := khPut_ok stands room
  obtain ⟨w, here, stands₁⟩ := found.there
  obtain ⟨h', write, buckets, stands'⟩ := writeVal_assigns stands₁ here v
  rw [Function.update_idem] at stands'
  refine ⟨h', .done, ?_, rfl, stands', (Nat.le_of_eq buckets).trans grows⟩
  simp only [khStep, put, ok_bind, write, pure_eq_ok]

theorem khGet_value (stands : StandsFor hash h M) (key : κ) :
    khStep hash h (.get key) = .ok (h, .found (M key)) := by
  obtain ⟨x, search, ⟨absent, rfl⟩ | ⟨v, stored, here⟩⟩ := khGet_ok stands key
  · simp only [khStep, search, ok_bind, if_true, pure_eq_ok, absent]
  · simp only [khStep, search, ok_bind, if_neg (Khash.ne_khEnd here), stands.khVal_ok here,
      pure_eq_ok, stored]

theorem remove_ok (stands : StandsFor hash h M) (key : κ) : KhStepOk hash h M (.remove key) := by
  obtain ⟨x, search, ⟨absent, rfl⟩ | ⟨v, stored, here⟩⟩ := khGet_ok stands key
  · refine ⟨h, .done, ?_, rfl, ?_, rfl⟩
    · simp only [khStep, search, ok_bind, if_true, pure_eq_ok]
    · rw [mapNext, ← absent, Function.update_eq_self]
      exact stands
  · have inside := (Khash.entry_eq_some.mp here).1
    obtain ⟨h', del, buckets, ⟨k, w, there, stands'⟩ | ⟨vacant, -⟩⟩ :=
      khDel_ok stands (Nat.le_of_lt inside)
    · rw [here] at there
      cases there
      refine ⟨h', .done, ?_, rfl, stands', buckets⟩
      simp only [khStep, search, ok_bind, if_neg (Khash.ne_khEnd here), del, pure_eq_ok]
    · rw [here] at vacant
      cases vacant

theorem resize_ok (stands : StandsFor hash h M) (n : Nat) : KhStepOk hash h M (.resize n) := by
  obtain ⟨h', run, result⟩ := khResize_ok stands n
  refine ⟨h', .done, ?_, rfl, ?_, trivial⟩
  · simp only [khStep, run, ok_bind, pure_eq_ok]
  · rcases result with ⟨-, rfl⟩ | resized
    · exact stands
    · exact .inr resized.represents

theorem khStep_ok (stands : StandsFor hash h M)
    (room : ∀ key v, op = .insert key v ∨ op = .assign key v → Room M key) :
    KhStepOk hash h M op := by
  cases op with
  | insert key v => exact insert_ok stands (room key v (.inl rfl)) v
  | assign key v => exact assign_ok stands (room key v (.inr rfl)) v
  | get key => exact ⟨h, .found (M key), khGet_value stands key, rfl, stands, rfl⟩
  | remove key => exact remove_ok stands key
  | clear =>
      obtain ⟨h', clear, buckets, stands'⟩ := khClear_ok stands
      refine ⟨h', .done, ?_, rfl, stands', buckets⟩
      simp only [khStep, clear, ok_bind, pure_eq_ok]
  | resize n => exact resize_ok stands n
  | foreach =>
      obtain ⟨l, loop, lists⟩ := khForeach_ok stands
      refine ⟨h, .entries l, ?_, lists, stands, rfl⟩
      simp only [khStep, loop, ok_bind, pure_eq_ok]

theorem KhAdmits.room {tr : Trace (KhOp κ υ) (KhOutput κ υ)} (admitted : KhAdmits tr h op) :
    ∀ key v, op = .insert key v ∨ op = .assign key v → Room (mapOf tr) key := by
  rintro key v (rfl | rfl)
  · exact admitted
  · exact admitted

theorem kh_refines (hash : κ → BitVec 32) :
    Refines (khMachine hash : Machine (Khash κ υ) _ _ _) KhAdmits mapNext (fun _ => none) MapLegal
      (StandsFor hash) where
  step tr h op stands admitted := by
    obtain ⟨h', o, run, legal, stands', -⟩ := khStep_ok stands (KhAdmits.room admitted)
    exact ⟨h', o, run, legal, stands'⟩

omit [DecidableEq κ] in
theorem init_standsFor (hash : κ → BitVec 32) (keys : Nat → κ) (vals : Nat → υ) :
    StandsFor hash (Khash.init keys vals) fun _ => none :=
  .inl ⟨⟨rfl, rfl, rfl, rfl, rfl, rfl⟩, rfl⟩

section Init
variable {keys : Nat → κ} {vals : Nat → υ} {tr : Trace (KhOp κ υ) (KhOutput κ υ)} {s : Khash κ υ}

theorem khRun_standsFor
    (run : Run (khMachine hash) KhAdmits (Khash.init keys vals) tr s) :
    StandsFor hash s (mapOf tr) :=
  ((kh_refines hash).run (init_standsFor hash keys vals) run).2

/-- In every run, whatever the hash function, each operation ends without a stray access and
answers as a map does: a key has the value it was given last, as long as it was not removed,
and an iteration comes to each key once. -/
theorem khRun_is_map (run : Run (khMachine hash) KhAdmits (Khash.init keys vals) tr s) :
    Lawful mapNext (fun _ => none) MapLegal tr ∧ ∀ op, KhAdmits tr s op →
      ∃ s' o, (khMachine hash).step s op = .ok (s', o) ∧ MapLegal (mapOf tr) op o :=
  ⟨((kh_refines hash).run (init_standsFor hash keys vals) run).1,
    fun _ admitted => (kh_refines hash).progress (init_standsFor hash keys vals) run admitted⟩

/-- With few keys there is room for each. -/
theorem KhAdmits.of_few (run : Run (khMachine hash) KhAdmits (Khash.init keys vals) tr s)
    (few : s.size < 2 ^ 31) (op : KhOp κ υ) : KhAdmits tr s op := by
  have room : ∀ key, Room (mapOf tr) key := fun _ =>
    .inr ⟨s.size, (khRun_standsFor run).ready.2.1, few⟩
  cases op with
  | insert key v => exact room key
  | assign key v => exact room key
  | _ => trivial

/-- Puts are made while there are at most `n` keys, and nobody resizes. -/
def FewKeys (n : Nat) : Guard (Khash κ υ) (KhOp κ υ) (KhOutput κ υ) := fun tr s op =>
  KhAdmits tr s op ∧ match op with
    | .insert _ _ | .assign _ _ => ∃ c, HasCard (mapOf tr) c ∧ c ≤ n
    | .resize _ => False
    | _ => True

theorem FewKeys.of_size {n : Nat}
    (run : Run (khMachine hash) (FewKeys n) (Khash.init keys vals) tr s) (few : s.size ≤ n)
    (small : n < 2 ^ 31) {op : KhOp κ υ} (other : ∀ n, op ≠ .resize n) :
    FewKeys n tr s op := by
  have admitted := run.mono fun _ _ _ few => few.1
  have card : ∃ c, HasCard (mapOf tr) c ∧ c ≤ n :=
    ⟨s.size, (khRun_standsFor admitted).ready.2.1, few⟩
  refine ⟨KhAdmits.of_few admitted (Nat.lt_of_le_of_lt few small) op, ?_⟩
  cases op with
  | insert | assign => exact card
  | resize n => exact absurd rfl (other n)
  | _ => trivial

/-- However many keys are put and removed over a run, the buckets are at most four times the
keys that were there at once. -/
theorem khRun_buckets {n : Nat}
    (run : Run (khMachine hash) (FewKeys n) (Khash.init keys vals) tr s) :
    s.nBuckets ≤ max 4 (4 * n) := by
  refine (Run.invariant (P := fun tr s => StandsFor hash s (mapOf tr) ∧
    s.nBuckets ≤ max 4 (4 * n)) ⟨init_standsFor hash keys vals, Nat.zero_le _⟩ ?_ run).2
  intro tr h op h' o ⟨stands, few⟩ ⟨admitted, guarded⟩ stepped
  obtain ⟨h₁, o₁, stepped₁, -, stands', sized⟩ := khStep_ok stands (KhAdmits.room admitted)
  cases stepped.symm.trans stepped₁
  refine ⟨stands', ?_⟩
  have grown : (∃ c, HasCard (mapOf tr) c ∧ c ≤ n) → Grows h h' → h'.nBuckets ≤ max 4 (4 * n) := by
    rintro ⟨c, card, le⟩ grows
    have same := card.unique stands.ready.2.1
    have bound : h'.nBuckets ≤ max h.nBuckets (max 4 (4 * h.size)) := grows
    omega
  cases op with
  | insert key v => exact grown guarded sized
  | assign key v => exact grown guarded sized
  | resize n => exact guarded.elim
  | get key => exact (Nat.le_of_eq sized).trans few
  | remove key => exact (Nat.le_of_eq sized).trans few
  | clear => exact (Nat.le_of_eq sized).trans few
  | foreach => exact (Nat.le_of_eq sized).trans few

/-- `kh_resize` in any reachable state and for any request: when the keys do not fit the load of
the buckets that the request is rounded to, nothing happens. Otherwise the table has so many
buckets, no bucket is marked deleted any more, and every key is found with its value. -/
theorem khRun_resize (run : Run (khMachine hash) KhAdmits (Khash.init keys vals) tr s)
    {request : Nat} (word : request < 2 ^ 32) :
    ∃ s' n, Rounds request n ∧ s.khResize hash request = .ok s' ∧
      (acUpperBound n ≤ s.size ∧ s' = s ∨
        s.size < acUpperBound n ∧ s'.nBuckets = n ∧ s'.nOccupied = s.size ∧
          (∀ i, s'.flags.isDel i = false) ∧
          ∀ key, ∃ o, khStep hash s (.get key) = .ok (s, o) ∧
            khStep hash s' (.get key) = .ok (s', o)) := by
  have stands := khRun_standsFor run
  obtain ⟨s', resize, result⟩ := khResize_ok stands request
  refine ⟨s', roundedBuckets request, roundedBuckets_rounds word, resize, ?_⟩
  rcases result with full | resized
  · exact .inl full
  refine .inr ⟨resized.few, resized.buckets, resized.occupied, resized.undeleted, fun key => ?_⟩
  exact ⟨_, khGet_value stands key, khGet_value (.inr resized.represents) key⟩

/-- In every reachable state `kh_put` hands out a bucket of its key exactly when the key is there
or there are fewer than `2 ^ 31` keys. Otherwise it leaves the table as it is, and hands out the
bucket of another key. -/
theorem khRun_put_iff (run : Run (khMachine hash) KhAdmits (Khash.init keys vals) tr s)
    (key : κ) :
    ((∃ s' x ret v, s.khPut hash key = .ok (s', x, ret) ∧ s'.entry x = some (key, v)) ↔
      Room (mapOf tr) key) ∧ (¬ Room (mapOf tr) key → Refuses hash s key) := by
  have stands := khRun_standsFor run
  refine ⟨⟨?_, fun room => ?_⟩, khPut_full stands⟩
  · rintro ⟨s', x, ret, v, put, here⟩
    by_contra none
    obtain ⟨y, k, w, put', there, other⟩ := (khPut_full stands none).other
    cases put.symm.trans put'
    cases here.symm.trans there
    exact other rfl
  · obtain ⟨s', x, ret, put, found, -⟩ := khPut_ok stands room
    obtain ⟨v, here, -⟩ := found.there
    exact ⟨s', x, ret, v, put, here⟩

end Init

section Collided
def emptyTable : Khash (BitVec 32) Nat := Khash.init (fun _ => 0) fun _ => 0

/-- Keys 1, 5 and 9 have the same first bucket, and 9 gets the bucket that 1 has left. -/
def collided : Khash (BitVec 32) Nat :=
  (khMachine id).afterAll emptyTable [.insert 1 10, .insert 5 50, .remove 1, .insert 9 90]

def collidedTrace : Trace (KhOp (BitVec 32) Nat) (KhOutput (BitVec 32) Nat) :=
  [(.insert 9 90, .inserted true 90), (.remove 1, .done), (.insert 5 50, .inserted true 50),
    (.insert 1 10, .inserted true 10)]

theorem collided_run : Run (khMachine id) KhAdmits emptyTable collidedTrace collided := by
  have next : ∀ {tr s op o}, Run (khMachine id) KhAdmits emptyTable tr s → s.size < 2 ^ 31 →
      (khMachine id).answer s op = some o →
        Run (khMachine id) KhAdmits emptyTable ((op, o) :: tr) ((khMachine id).after s op) :=
    fun run few answered => run.snoc (KhAdmits.of_few run few _) (Machine.step_eq answered)
  exact next (next (next (next .nil (by decide) rfl) (by decide) rfl) (by decide) rfl)
    (by decide) rfl

theorem khRun_is_map_collided : ∃ s' o, (khMachine id).step collided (.get 5) = .ok (s', o) ∧
    o = .found (mapOf collidedTrace 5) :=
  (khRun_is_map collided_run).2 (.get 5) trivial

theorem khRun_resize_collided : ∃ s' n, Rounds 20 n ∧ collided.khResize id 20 = .ok s' ∧
    (acUpperBound n ≤ collided.size ∧ s' = collided ∨
      collided.size < acUpperBound n ∧ s'.nBuckets = n ∧ s'.nOccupied = collided.size ∧
        (∀ i, s'.flags.isDel i = false) ∧
        ∀ key, ∃ o, khStep id collided (.get key) = .ok (collided, o) ∧
          khStep id s' (.get key) = .ok (s', o)) :=
  khRun_resize collided_run (by decide)

theorem khRun_put_iff_collided :
    ∃ s' x ret v, collided.khPut id 13 = .ok (s', x, ret) ∧ s'.entry x = some (13, v) :=
  (khRun_put_iff collided_run 13).1.mpr
    (KhAdmits.of_few collided_run (by decide) (.insert 13 130))

/-- Three keys of one first bucket, and a fourth for one that has gone: the bucket marked deleted
makes the table grow. -/
def churned : Khash (BitVec 32) Nat :=
  (khMachine id).afterAll emptyTable
    [.insert 1 10, .insert 5 50, .insert 9 90, .remove 1, .insert 13 130]

theorem churned_run : Run (khMachine id) (FewKeys 2) emptyTable
    [(.insert 13 130, .inserted true 130), (.remove 1, .done), (.insert 9 90, .inserted true 90),
      (.insert 5 50, .inserted true 50), (.insert 1 10, .inserted true 10)] churned := by
  have put : ∀ {tr s o} (key v), Run (khMachine id) (FewKeys 2) emptyTable tr s → s.size ≤ 2 →
      (khMachine id).answer s (.insert key v) = some o →
        Run (khMachine id) (FewKeys 2) emptyTable ((.insert key v, o) :: tr)
          ((khMachine id).after s (.insert key v)) :=
    fun _ _ run few answered => run.snoc
      (FewKeys.of_size run few (by decide) (by simp)) (Machine.step_eq answered)
  have three := put 9 90 (put 5 50 (put 1 10 .nil (by decide) rfl) (by decide) rfl)
    (by decide) rfl
  have gone : Run (khMachine id) (FewKeys 2) emptyTable ((.remove 1, .done) :: _) _ :=
    three.snoc ⟨trivial, trivial⟩ (Machine.step_eq rfl)
  exact put 13 130 gone (by decide) rfl

/-- It has the eight buckets that the bound allows. -/
theorem khRun_buckets_churned : churned.nBuckets = 8 ∧ churned.nBuckets ≤ max 4 (4 * 2) :=
  ⟨by decide, khRun_buckets churned_run⟩

end Collided

end CThread.Hash
