import MemoryService.Tools.Edges

/-!
# The scalars of a value, by their paths

The path of a scalar is the text of the keys and places that lead to it.  What is read of a value
is told apart by these texts as long as no key reads like a path beneath another.
-/

namespace MemoryService.Tools

open Domain Foundation List

def joined (path key : String) : String := if path = "" then key else path ++ "." ++ key

def indexed (path : String) (i : ℕ) : String := path ++ "[" ++ toString i ++ "]"

mutual

/-- All the scalars of a value, each with the text of its path. -/
def scalars (path : String) : Json → List (String × Scalar)
  | .obj members => scalarsOfMembers path members
  | .arr items => scalarsOfItems path 0 items
  | .str text => [(path, .text text)]
  | .num number => [(path, .number number)]
  | .null => []
  | .bool _ => []

def scalarsOfItems (path : String) (i : ℕ) : List Json → List (String × Scalar)
  | [] => []
  | item :: items => scalars (indexed path i) item ++ scalarsOfItems path (i + 1) items

def scalarsOfMembers (path : String) : List (String × Json) → List (String × Scalar)
  | [] => []
  | (key, sub) :: members => scalars (joined path key) sub ++ scalarsOfMembers path members

end

def Disjoint (these those : List (String × Scalar)) : Prop :=
  ∀ entry ∈ these, ∀ other ∈ those, entry.1 ≠ other.1

mutual

/-- In no object has a scalar beneath one key the path of a scalar beneath a later one. -/
def KeysApart (path : String) : Json → Prop
  | .obj members => KeysApartMembers path members
  | .arr items => KeysApartItems path 0 items
  | _ => True

def KeysApartItems (path : String) (i : ℕ) : List Json → Prop
  | [] => True
  | item :: items => KeysApart (indexed path i) item ∧ KeysApartItems path (i + 1) items

def KeysApartMembers (path : String) : List (String × Json) → Prop
  | [] => True
  | (key, sub) :: members =>
    Disjoint (scalars (joined path key) sub) (scalarsOfMembers path members) ∧
      KeysApart (joined path key) sub ∧ KeysApartMembers path members

end

/-- `text` goes on from `path`. -/
def Beneath (path text : String) : Prop := ∃ rest, text.toList = path.toList ++ rest

variable {path other text : String}

theorem Beneath.trans (first : Beneath path other) (second : Beneath other text) :
    Beneath path text := by
  obtain ⟨front, isFront⟩ := first
  obtain ⟨rest, isRest⟩ := second
  exact ⟨front ++ rest, by rw [isRest, isFront, append_assoc]⟩

theorem beneath_joined (path key : String) : Beneath path (joined path key) := by
  rw [joined]
  split
  · next isEmpty => exact ⟨key.toList, by rw [isEmpty]; rfl⟩
  · exact ⟨'.' :: key.toList, by simp⟩

theorem toList_indexed (path : String) (i : ℕ) :
    (indexed path i).toList = path.toList ++ '[' :: (Nat.toDigits 10 i ++ [']']) := by
  simp [indexed, Nat.toString_eq_repr]

mutual

variable {entry : String × Scalar}

theorem beneath_of_mem {path : String} :
    ∀ {value : Json}, entry ∈ scalars path value → Beneath path entry.1
  | .obj _, member => beneath_of_mem_members member
  | .arr _, member => by
    obtain ⟨j, -, isBeneath⟩ := beneath_of_mem_items member
    exact .trans ⟨_, toList_indexed path j⟩ isBeneath
  | .str _, member => by
    rw [mem_singleton.mp member]
    exact ⟨[], (append_nil _).symm⟩
  | .num _, member => by
    rw [mem_singleton.mp member]
    exact ⟨[], (append_nil _).symm⟩

theorem beneath_of_mem_items {path : String} :
    ∀ {items : List Json} {i : ℕ}, entry ∈ scalarsOfItems path i items →
      ∃ j, i ≤ j ∧ Beneath (indexed path j) entry.1
  | _ :: _, i, member => by
    rcases mem_append.mp member with here | later
    · exact ⟨i, le_rfl, beneath_of_mem here⟩
    · obtain ⟨j, isLater, isBeneath⟩ := beneath_of_mem_items later
      exact ⟨j, Nat.le_of_succ_le isLater, isBeneath⟩

theorem beneath_of_mem_members {path : String} :
    ∀ {members : List (String × Json)}, entry ∈ scalarsOfMembers path members → Beneath path entry.1
  | (key, _) :: _, member => by
    rcases mem_append.mp member with here | later
    · exact (beneath_joined path key).trans (beneath_of_mem here)
    · exact beneath_of_mem_members later

end

/-- The bracket that closes the place of an item ends its number. -/
theorem place_eq {i j : ℕ} (isFirst : Beneath (indexed path i) text)
    (isSecond : Beneath (indexed path j) text) : i = j := by
  obtain ⟨front, isFront⟩ := isFirst
  obtain ⟨rest, isRest⟩ := isSecond
  rw [isFront, toList_indexed, toList_indexed] at isRest
  simp only [append_assoc, append_cancel_left_eq, cons_append,
    nil_append, List.cons.injEq, true_and] at isRest
  have noBracket (n : ℕ) : ∀ c ∈ Nat.toDigits 10 n, (c != ']') = true := by
    intro c member
    have isDigit := Nat.isDigit_of_mem_toDigits (by decide) (by decide) member
    exact bne_iff_ne.mpr (by rintro rfl; exact absurd isDigit (by decide))
  have ends (n : ℕ) (after : List Char) :
      (Nat.toDigits 10 n ++ ']' :: after).takeWhile (· != ']') = Nat.toDigits 10 n := by
    rw [takeWhile_append_of_pos (noBracket n)]
    simp
  have sameDigits := (ends i front).symm.trans ((congrArg _ isRest).trans (ends j rest))
  simpa [Nat.ofDigitChars_ten_toDigits] using congrArg (Nat.ofDigitChars 10 · 0) sameDigits

theorem items_disjoint (path : String) (i : ℕ) (item : Json) (items : List Json) :
    Disjoint (scalars (indexed path i) item) (scalarsOfItems path (i + 1) items) := by
  intro entry here other later same
  obtain ⟨j, isLater, isBeneath⟩ := beneath_of_mem_items later
  have isPlace := place_eq (same ▸ beneath_of_mem here) isBeneath
  omega

def Told (entries : List (String × Scalar)) : Prop := (entries.map Prod.fst).Nodup

theorem told_append {these those : List (String × Scalar)} :
    Told (these ++ those) ↔ Told these ∧ Told those ∧ Disjoint these those := by
  simp only [Told, Disjoint, map_append, nodup_append, forall_mem_map]

mutual

theorem told_scalars (path : String) :
    ∀ value : Json, Told (scalars path value) ↔ KeysApart path value
  | .obj members => told_scalarsOfMembers path members
  | .arr items => told_scalarsOfItems path 0 items
  | .str _ => iff_of_true (nodup_singleton _) trivial
  | .num _ => iff_of_true (nodup_singleton _) trivial
  | .null => iff_of_true nodup_nil trivial
  | .bool _ => iff_of_true nodup_nil trivial

theorem told_scalarsOfItems (path : String) (i : ℕ) :
    ∀ items : List Json, Told (scalarsOfItems path i items) ↔ KeysApartItems path i items
  | [] => iff_of_true nodup_nil trivial
  | item :: items => by
    rw [scalarsOfItems, told_append, told_scalars, told_scalarsOfItems, KeysApartItems]
    have disjoint := items_disjoint path i item items
    tauto

theorem told_scalarsOfMembers (path : String) :
    ∀ members : List (String × Json),
      Told (scalarsOfMembers path members) ↔ KeysApartMembers path members
  | [] => iff_of_true nodup_nil trivial
  | (key, sub) :: members => by
    rw [scalarsOfMembers, told_append, told_scalars, told_scalarsOfMembers, KeysApartMembers]
    tauto

end

/-- How many are taken: of a list its first items, of an object no further member once there
are as many as the bound. -/
def taken : ℕ → Json → ℕ
  | 0, _ => 0
  | left + 1, .obj members =>
    members.foldl (fun n entry =>
      if maxFields ≤ n then n else n + taken left entry.2) 0
  | left + 1, .arr items => ((items.take maxItems).map (taken left)).sum
  | _ + 1, value => (leaf value).toList.length

/-- These entries, in their order, are all told, and so many. -/
structure Takes (n : ℕ) (entries : List (String × Scalar)) (dict : Dict String Scalar) : Prop where
  sublist : dict.items.Sublist entries
  length : dict.items.length = n

variable {out more : Dict String Scalar} {before entries : List (String × Scalar)} {n k : ℕ}

theorem update_items (disjoint : Disjoint out.items more.items) :
    (update out more).items = out.items ++ more.items := by
  have inTurn : ∀ (entries : List (String × Scalar)) (out : Dict String Scalar),
      Told (out.items ++ entries) →
      (entries.foldl (fun out entry => out.set entry.1 entry.2) out).items =
        out.items ++ entries := by
    intro entries
    induction entries with
    | nil => intro out _; exact (append_nil _).symm
    | cons entry entries ih =>
      intro out told
      have isNew : out.contains entry.1 = false := by
        rw [← Bool.not_eq_true, Dict.contains_iff]
        intro isKey
        obtain ⟨old, isOld, same⟩ := mem_map.mp isKey
        exact (told_append.mp told).2.2 old isOld entry mem_cons_self same
      have isSet : (out.set entry.1 entry.2).items = out.items ++ [entry] := by
        simp [Dict.set, isNew]
      rw [append_cons] at told ⊢
      rw [← isSet] at told ⊢
      exact ih _ told
  exact inTurn _ _ (told_append.mpr ⟨out.distinct, more.distinct, disjoint⟩)

theorem Takes.update (first : Takes n before out) (second : Takes k entries more)
    (told : Told (before ++ entries)) :
    Takes (n + k) (before ++ entries) (update out more) := by
  have disjoint : Disjoint out.items more.items := fun entry here other there =>
    (told_append.mp told).2.2 entry (first.sublist.mem here) other (second.sublist.mem there)
  have items := update_items disjoint
  constructor
  · rw [items]
    exact first.sublist.append second.sublist
  · rw [items, length_append, first.length, second.length]

theorem Takes.weaken (takes : Takes n before out) (entries : List (String × Scalar)) :
    Takes n (before ++ entries) out :=
  ⟨takes.sublist.trans (sublist_append_left _ _), takes.length⟩

theorem takes_members {left : ℕ}
    (ih : ∀ path value, Told (scalars path value) →
      Takes (taken left value) (scalars path value) (flatten left path value))
    (path : String) (members : List (String × Json)) (takes : Takes n before out)
    (told : Told (before ++ scalarsOfMembers path members)) :
    Takes (members.foldl (fun n entry =>
        if maxFields ≤ n then n else n + taken left entry.2) n)
      (before ++ scalarsOfMembers path members)
      (members.foldl (fun out entry =>
        if maxFields ≤ out.items.length then out
        else Tools.update out (flatten left (joined path entry.1) entry.2)) out) := by
  induction members generalizing n before out with
  | nil => exact takes.weaken _
  | cons entry members inner =>
    obtain ⟨key, sub⟩ := entry
    rw [scalarsOfMembers, ← append_assoc] at told ⊢
    have toldHere := (told_append.mp told).1
    refine inner ?_ told
    simp only [takes.length]
    split
    · exact takes.weaken _
    · exact takes.update (ih _ _ (told_append.mp toldHere).2.1) toldHere

theorem takes_items {left : ℕ}
    (ih : ∀ path value, Told (scalars path value) →
      Takes (taken left value) (scalars path value) (flatten left path value))
    (path : String) (i : ℕ) (items : List Json) (takes : Takes n before out)
    (told : Told (before ++ scalarsOfItems path i items)) :
    Takes (n + (items.map (taken left)).sum) (before ++ scalarsOfItems path i items)
      ((items.zipIdx i).foldl (fun out entry =>
        Tools.update out (flatten left (indexed path entry.2) entry.1)) out) := by
  induction items generalizing n before out i with
  | nil => exact takes.weaken _
  | cons item items inner =>
    rw [scalarsOfItems, ← append_assoc] at told ⊢
    have toldHere := (told_append.mp told).1
    rw [map_cons, sum_cons, ← Nat.add_assoc]
    exact inner _ (takes.update (ih _ _ (told_append.mp toldHere).2.1) toldHere) told

theorem scalarsOfItems_append (path : String) (i : ℕ) (items rest : List Json) :
    scalarsOfItems path i (items ++ rest) =
      scalarsOfItems path i items ++ scalarsOfItems path (i + items.length) rest := by
  induction items generalizing i with
  | nil => rfl
  | cons item items ih =>
    rw [cons_append, scalarsOfItems, ih, scalarsOfItems, append_assoc,
      length_cons, Nat.add_right_comm, Nat.add_assoc]

theorem takes_flatten (left : ℕ) (path : String) (value : Json) (told : Told (scalars path value)) :
    Takes (taken left value) (scalars path value) (flatten left path value) := by
  have empty : Takes 0 [] (∅ : Dict String Scalar) := ⟨List.Sublist.refl _, rfl⟩
  induction left generalizing path value with
  | zero => exact empty.weaken _
  | succ left ih =>
    cases value with
    | obj members => exact takes_members ih path members empty told
    | arr items =>
      have cut := scalarsOfItems_append path 0 (items.take maxItems) (items.drop maxItems)
      rw [take_append_drop] at cut
      rw [scalars, cut] at told ⊢
      have takes := takes_items ih path 0 (items.take maxItems) empty (told_append.mp told).1
      rw [Nat.zero_add] at takes
      exact takes.weaken _
    | str text => exact ⟨List.Sublist.refl _, rfl⟩
    | num number => exact ⟨List.Sublist.refl _, rfl⟩
    | null => exact empty
    | bool _ => exact empty

/-- What `flatten` should tell of a value. -/
structure Faithful (value : Json) : Prop where
  bounded : (flatten (maxDepth + 1) "" value).items.length ≤ maxFields
  exact : ∀ entry ∈ (flatten (maxDepth + 1) "" value).items, ∀ found,
    (entry.1, found) ∈ scalars "" value ↔ found = entry.2
  told : Told (scalars "" value)

theorem faithful_iff (value : Json) :
    Faithful value ↔ taken (maxDepth + 1) value ≤ maxFields ∧ KeysApart "" value := by
  rw [← told_scalars]
  constructor
  · intro faithful
    have takes := takes_flatten (maxDepth + 1) "" value faithful.told
    exact ⟨takes.length ▸ faithful.bounded, faithful.told⟩
  · rintro ⟨few, told⟩
    have takes := takes_flatten (maxDepth + 1) "" value told
    refine ⟨takes.length.trans_le few, fun entry isEntry found => ?_, told⟩
    have member := takes.sublist.mem isEntry
    constructor
    · intro isFound
      exact congrArg Prod.snd (inj_on_of_nodup_map told isFound member rfl)
    · rintro rfl
      exact member

/-- A key with a dot and the path it spells. -/
theorem dotted_key_is_taken_for_a_path : ¬∀ value, Faithful value := by
  intro always
  let value : Json := .obj [("a.b", .str "c"), ("a", .obj [("b", .str "d")])]
  have told : Told [("a.b", .text "c"), ("a.b", .text "d")] := (always value).told
  exact absurd told (by rw [Told]; decide)

end MemoryService.Tools
