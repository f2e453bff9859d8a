import MemoryService.Foundation.Transition
import Mathlib.Data.List.Basic
import Mathlib.Data.Set.Basic

/-!
# Computing through a cache

A call computes a value for each of its items and keeps what it computed under the item's key.
-/

namespace MemoryService.Foundation.ReadThrough

open List

universe u v w x

structure Packing (Value : Type u) (Stored : Type v) where
  pack : Value → Stored
  unpack : Stored → Value
  unpackPack : ∀ value, unpack (pack value) = value

structure Weather (Key : Type u) where
  answers : Key → Bool
  lands : Bool

variable {Item : Type u} {Key : Type v} {Value : Type w} {Stored : Type x} [DecidableEq Key]

abbrev Cache (Key : Type v) (Stored : Type x) := List (Key × Stored)

def read (weather : Weather Key) (cache : Cache Key Stored) (key : Key) :
    Option Stored :=
  if weather.answers key then cache.lookup key else none

section Calls

variable (packing : Packing Value Stored) (key : Item → Key) (compute : Item → Value)
  (weather : Weather Key) (cache : Cache Key Stored)

def hit (item : Item) : Option Value := (read weather cache (key item)).map packing.unpack

def missed (items : List Item) :
    Cache Key Stored :=
  (items.filter fun item => (hit packing key weather cache item).isNone).map
    fun item => (key item, packing.pack (compute item))

def call (items : List Item) :
    List Value × Cache Key Stored :=
  (items.map fun item => (hit packing key weather cache item).getD (compute item),
    if weather.lands then (missed packing key compute weather cache items).reverse ++ cache
    else cache)

def Determines (items : Set Item) : Prop :=
  ∀ first ∈ items, ∀ second ∈ items, key first = key second → compute first = compute second

def Agrees (items : Set Item) (cache : Cache Key Stored) : Prop :=
  ∀ entry ∈ cache, ∃ item ∈ items, key item = entry.1 ∧ packing.pack (compute item) = entry.2

end Calls

variable {packing : Packing Value Stored} {key : Item → Key} {compute : Item → Value}
  {items : Set Item} {weather : Weather Key} {cache : Cache Key Stored}

omit [DecidableEq Key] in
theorem agrees_nil : Agrees packing key compute items [] := by
  intro entry member
  cases member

theorem mem_of_lookup_eq_some {wanted : Key} {stored : Stored}
    (found : cache.lookup wanted = some stored) : (wanted, stored) ∈ cache := by
  induction cache with
  | nil => cases found
  | cons entry cache ih =>
    rw [lookup_cons] at found
    by_cases same : wanted = entry.1
    · rw [beq_iff_eq.mpr same] at found
      have isStored : entry.2 = stored := Option.some.inj found
      rw [same, ← isStored]
      exact mem_cons_self
    · rw [beq_eq_false_iff_ne.mpr same] at found
      exact mem_cons_of_mem entry (ih found)

theorem hit_eq (determines : Determines key compute items)
    (agrees : Agrees packing key compute items cache)
    {item : Item} (member : item ∈ items) {value : Value}
    (found : hit packing key weather cache item = some value) :
    value = compute item := by
  obtain ⟨stored, isRead, rfl⟩ := Option.map_eq_some_iff.mp found
  rw [read] at isRead
  obtain ⟨-, isRead⟩ := Option.ite_none_right_eq_some.mp isRead
  obtain ⟨other, otherMember, sameKey, rfl⟩ := agrees _ (mem_of_lookup_eq_some isRead)
  rw [packing.unpackPack]
  exact determines other otherMember item member sameKey

theorem call_values (determines : Determines key compute items)
    (agrees : Agrees packing key compute items cache)
    {asked : List Item} (members : ∀ item ∈ asked, item ∈ items) :
    (call packing key compute weather cache asked).1 = asked.map compute := by
  refine map_congr_left fun item isAsked => ?_
  cases found : hit packing key weather cache item with
  | none => rfl
  | some value =>
    exact hit_eq determines agrees (members item isAsked) found

theorem call_agrees (agrees : Agrees packing key compute items cache)
    {asked : List Item} (members : ∀ item ∈ asked, item ∈ items) :
    Agrees packing key compute items (call packing key compute weather cache asked).2 := by
  rw [call]
  dsimp only
  split
  case isFalse => exact agrees
  case isTrue =>
    intro entry member
    rcases mem_append.mp member with isNew | isOld
    · obtain ⟨item, inMissed, rfl⟩ := mem_map.mp (mem_reverse.mp isNew)
      exact ⟨item, members item (mem_of_mem_filter inMissed), rfl, rfl⟩
    · exact agrees entry isOld

end MemoryService.Foundation.ReadThrough

/-!
## Views kept under counters

A reader keeps what it saw of a store under the counters it read before.  What is kept under the
counters of now is what it would see now, as long as every write that changes its view moves a
counter that it reads.
-/

namespace MemoryService.Foundation.Views

universe u v w x y

structure World (Store : Type u) (Write : Type v) (Reader : Type w) (View : Type x)
    (Key : Type y) where
  apply : Store → Write → Option Store
  moves : Store → Write → List Key
  view : Reader → Store → View
  reads : Reader → List Key

structure Kept (Reader : Type u) (View : Type v) where
  reader : Reader
  counters : List ℕ
  view : View

structure State (Store : Type u) (Reader : Type v) (View : Type w) (Key : Type x) where
  store : Store
  counters : Key → ℕ := fun _ => 0
  looking : List (Reader × List ℕ) := []
  kept : List (Kept Reader View) := []

inductive Action (Write : Type u) (Reader : Type v) where
  | write (write : Write)
  | look (reader : Reader)
  | keep (place : ℕ)

variable {Store : Type u} {Write : Type v} {Reader : Type w} {View : Type x} {Key : Type y}
  [DecidableEq Key] (world : World Store Write Reader View Key)

def moved (keys : List Key) (counters : Key → ℕ) : Key → ℕ :=
  fun key => counters key + if key ∈ keys then 1 else 0

def read (counters : Key → ℕ) (reader : Reader) : List ℕ := (world.reads reader).map counters

def step (state : State Store Reader View Key) :
    Action Write Reader → Option (State Store Reader View Key)
  | .write write =>
    (world.apply state.store write).map fun store =>
      { state with store, counters := moved (world.moves state.store write) state.counters }
  | .look reader =>
    some { state with
      looking := state.looking ++ [(reader, read world state.counters reader)] }
  | .keep place =>
    (state.looking[place]?).map fun (reader, counters) =>
      { state with
        looking := state.looking.eraseIdx place
        kept := state.kept ++ [{ reader, counters, view := world.view reader state.store }] }

/-- What is kept under the counters of now is what its reader would see now. -/
def Fresh (state : State Store Reader View Key) : Prop :=
  ∀ kept ∈ state.kept, kept.counters = read world state.counters kept.reader →
    kept.view = world.view kept.reader state.store

def Announced (store : Store) (write : Write) : Prop :=
  ∀ next, world.apply store write = some next → ∀ reader,
    world.view reader next ≠ world.view reader store →
      ∃ key ∈ world.moves store write, key ∈ world.reads reader

/-- The counters were read once, at or before now. -/
def Former (counters : Key → ℕ) (reader : Reader) (old : List ℕ) : Prop :=
  ∃ earlier ≤ counters, old = read world earlier reader

structure Sound (state : State Store Reader View Key) : Prop where
  looking : ∀ look ∈ state.looking, Former world state.counters look.1 look.2
  kept : ∀ kept ∈ state.kept, Former world state.counters kept.reader kept.counters
  fresh : Fresh world state

variable {world} {counters : Key → ℕ} {keys : List Key} {reader : Reader} {old : List ℕ}

omit [DecidableEq Key] in
theorem Former.mono {later : Key → ℕ} (former : Former world counters reader old)
    (grows : counters ≤ later) : Former world later reader old := by
  obtain ⟨earlier, before, isRead⟩ := former
  exact ⟨earlier, before.trans grows, isRead⟩

omit [DecidableEq Key] in
theorem former_read : Former world counters reader (read world counters reader) :=
  ⟨counters, le_refl counters, rfl⟩

theorem le_moved : counters ≤ moved keys counters := fun _ => Nat.le_add_right _ _

theorem Former.apart (former : Former world counters reader old) {key : Key}
    (isMoved : key ∈ keys) (isRead : key ∈ world.reads reader) :
    old ≠ read world (moved keys counters) reader := by
  obtain ⟨earlier, before, rfl⟩ := former
  intro same
  have atKey : earlier key = moved keys counters key := List.map_inj_left.mp same key isRead
  have below : earlier key ≤ counters key := before key
  rw [moved, if_pos isMoved] at atKey
  omega

theorem Former.stays (former : Former world counters reader old)
    (same : old = read world (moved keys counters) reader) : old = read world counters reader := by
  obtain ⟨earlier, before, rfl⟩ := former
  apply List.map_congr_left
  intro key isRead
  have atKey : earlier key = moved keys counters key := List.map_inj_left.mp same key isRead
  have below : earlier key ≤ counters key := before key
  rw [moved] at atKey
  omega

variable {state next : State Store Reader View Key}

section

variable (sound : Sound world state)
include sound

theorem Sound.write {write : Write}
    (announced : Announced world state.store write)
    (stepped : step world state (.write write) = some next) : Sound world next := by
  obtain ⟨store, isStore, rfl⟩ := Option.map_eq_some_iff.mp stepped
  refine ⟨fun look member => (sound.looking look member).mono le_moved,
    fun kept member => (sound.kept kept member).mono le_moved, ?_⟩
  intro kept member same
  have former := sound.kept kept member
  by_cases changed : world.view kept.reader store = world.view kept.reader state.store
  · rw [changed]
    exact sound.fresh kept member (former.stays same)
  · obtain ⟨key, isMoved, isRead⟩ := announced store isStore kept.reader changed
    exact absurd same (former.apart isMoved isRead)

theorem Sound.look
    (stepped : step world state (.look reader) = some next) : Sound world next := by
  cases stepped
  refine ⟨fun look member => ?_, sound.kept, sound.fresh⟩
  cases List.mem_append.mp member with
  | inl isOld => exact sound.looking look isOld
  | inr isNew =>
    rw [List.mem_singleton.mp isNew]
    exact former_read

theorem Sound.keep {place : ℕ}
    (stepped : step world state (.keep place) = some next) : Sound world next := by
  obtain ⟨⟨reader, old⟩, isLooking, rfl⟩ := Option.map_eq_some_iff.mp stepped
  have former := sound.looking _ (List.mem_of_getElem? isLooking)
  refine ⟨fun look member => sound.looking look (List.mem_of_mem_eraseIdx member),
    fun kept member => ?_, fun kept member same => ?_⟩
  · cases List.mem_append.mp member with
    | inl isOld => exact sound.kept kept isOld
    | inr isNew =>
      rw [List.mem_singleton.mp isNew]
      exact former
  · cases List.mem_append.mp member with
    | inl isOld => exact sound.fresh kept isOld same
    | inr isNew => rw [List.mem_singleton.mp isNew]

end

omit [DecidableEq Key] in
theorem sound_start (store : Store) :
    Sound world ({ store } : State Store Reader View Key) where
  looking := by simp
  kept := by simp
  fresh := by simp [Fresh]

end MemoryService.Foundation.Views
