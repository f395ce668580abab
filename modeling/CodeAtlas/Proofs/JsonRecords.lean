import CodeAtlas.Proofs.JsonText

/-!
Records and how deep they nest. A record whose keys are written as they are and stand once gives
back its fields. The levels of a tree are its arrays and objects inside each other, which is what
the depth of a reader is spent on.
-/
namespace CodeAtlas.Json.Value

def Plain (key : String) : Prop := Quoted.escape key.toList = key.toList

instance (key : String) : Decidable (Plain key) := inferInstanceAs (Decidable (_ = _))

structure PlainKeys (keys : List String) : Prop where
  plain : ∀ k ∈ keys, Plain k
  once : keys.Nodup

instance (keys : List String) : Decidable (PlainKeys keys) :=
  decidable_of_iff ((∀ k ∈ keys, Plain k) ∧ keys.Nodup)
    ⟨fun h => ⟨h.1, h.2⟩, fun h => ⟨h.plain, h.once⟩⟩

theorem PlainKeys.sublist {keys all : List String} (h : PlainKeys all) (sub : keys.Sublist all) :
    PlainKeys keys :=
  ⟨fun k member => h.plain k (sub.subset member), h.once.sublist sub⟩

theorem unescape?_plain {key : String} (h : Plain key) :
    Quoted.unescape? key.toList = some key.toList := by
  rw [← Quoted.unescape?_escape, h]

theorem written_text (s : String) : (text s).Written := .str s.toList

theorem written_nat (n : Nat) : (nat n).Written := .num n

theorem written_record {members : List (String × Value)} (keys : PlainKeys (members.map Prod.fst))
    (each : ∀ m ∈ members, m.2.Written) : (record members).Written := by
  refine .obj ?_ ?_
  · intro m member
    obtain ⟨⟨k, v⟩, found, rfl⟩ := List.mem_map.1 member
    exact ⟨k.toList, (keys.plain k (List.mem_map_of_mem found)).symm⟩
  · intro m member
    obtain ⟨⟨k, v⟩, found, rfl⟩ := List.mem_map.1 member
    exact each _ found

@[simp]
theorem text?_text (s : String) : (text s).text? = some s := by
  simp [text, text?, Quoted.unescape?_escape]

@[simp]
theorem tag?_text (depth : Nat) (s : String) : (text s).tag? depth = some s := by
  simp [text, tag?, Quoted.unescape?_escape]

theorem offset?_nat {n : Nat} (h : n < UInt64.size) : (nat n).offset? = some n := by
  rw [nat, offset?, Number.offset?_write h]

theorem lt_of_offset? {v : Value} {n : Nat} (h : v.offset? = some n) : n < UInt64.size := by
  rw [offset?.eq_def] at h
  split at h
  · next w =>
    rw [Number.offset?] at h
    split at h
    · next bound =>
      rw [Bool.and_eq_true, decide_eq_true_iff] at bound
      exact Option.some.inj h ▸ bound.2
    · contradiction
  · contradiction

theorem mapM_map {α β : Type} {write : α → β} {read : β → Option α} {l : List α}
    (h : ∀ a ∈ l, read (write a) = some a) : (l.map write).mapM read = some l := by
  induction l with
  | nil => rfl
  | cons a l ih =>
    obtain ⟨first, others⟩ := List.forall_mem_cons.1 h
    rw [List.map_cons, List.mapM_cons, first, ih others]
    rfl

theorem mem_of_mapM {α β : Type} {read : β → Option α} {l : List β} {k : List α}
    (h : l.mapM read = some k) : ∀ a ∈ k, ∃ b ∈ l, read b = some a := by
  induction l generalizing k with
  | nil =>
    obtain rfl : [] = k := Option.some.inj h
    simp
  | cons b l ih =>
    simp only [List.mapM_cons, Option.bind_eq_bind, Option.bind_eq_some_iff, Option.pure_def,
      Option.some_inj] at h
    obtain ⟨a, first, rest, others, rfl⟩ := h
    rw [List.forall_mem_cons]
    refine ⟨⟨b, List.mem_cons_self, first⟩, ?_⟩
    intro c member
    obtain ⟨d, found, read⟩ := ih others c member
    exact ⟨d, List.mem_cons_of_mem _ found, read⟩

theorem members?_record {members : List (String × Value)}
    (keys : PlainKeys (members.map Prod.fst)) : (record members).members? = some members := by
  rw [record, members?]
  apply mapM_map
  intro m member
  simp [unescape?_plain (keys.plain m.1 (List.mem_map_of_mem member))]

theorem unique?_eq_lookup {members : List (String × Value)}
    (once : (members.map Prod.fst).Nodup) (key : String) :
    unique? members key = some (members.lookup key) := by
  induction members with
  | nil => rfl
  | cons m members ih =>
    rw [List.map_cons, List.nodup_cons] at once
    obtain ⟨k, v⟩ := m
    by_cases same : k = key
    · subst same
      have others : members.filter (fun m => m.1 == k) = [] := by
        rw [List.filter_eq_nil_iff]
        intro m member found
        exact once.1 (List.mem_map.2 ⟨m, member, by simpa using found⟩)
      simp [unique?, others]
    · have differ : (key == k) = false := by simpa using Ne.symm same
      rw [List.lookup_cons, differ, ← ih once.2, unique?, unique?,
        List.filter_cons_of_neg (by simpa using same)]

theorem fields?_record {members : List (String × Value)} (keys : PlainKeys (members.map Prod.fst))
    (names : List String) (required : Nat) :
    (record members).fields? names required = some (names.map fun n => members.lookup n) := by
  have each : names.mapM (unique? members) = some (names.map fun n => members.lookup n) := by
    rw [funext (unique?_eq_lookup keys.once)]
    exact List.mapM_pure
  have found := members?_record keys
  rw [record] at found ⊢
  rw [fields?, found]
  · exact each
  · intro items same
    simp at same

theorem optional?_map {α : Type} {write : α → Value} {read : Value → Option α} {x : Option α}
    (filled : ∀ a, write a ≠ .null) (h : ∀ a ∈ x, read (write a) = some a) :
    optional? read (x.map write) = some x := by
  cases x with
  | none => rfl
  | some a =>
    rw [Option.map_some, optional?, h a rfl, Option.map_some]
    exact filled a

theorem of_optional? {α : Type} {read : Value → Option α} {v : Option Value} {a : α}
    (h : optional? read v = some (some a)) : ∃ w, read w = some a := by
  cases v with
  | none => simp [optional?] at h
  | some v =>
    rw [optional?.eq_def] at h
    split at h
    · simp at h
    · simp at h
    · next w same =>
      obtain ⟨b, found, same⟩ := Option.map_eq_some_iff.1 h
      exact ⟨_, Option.some.inj same ▸ found⟩

theorem keys_toList_sublist {α : Type} (key : String) (write : α → Value)
    (x : Option α) : ((x.map fun a => (key, write a)).toList.map Prod.fst).Sublist [key] := by
  cases x with
  | none => exact List.nil_sublist _
  | some a => exact List.Sublist.refl _

theorem forall_toList {α : Type} {key : String} {write : α → Value} {x : Option α}
    {P : Value → Prop} :
    (∀ m ∈ (x.map fun a => (key, write a)).toList, P m.2) ↔ ∀ a ∈ x, P (write a) := by
  simp

section Entries

variable {ν α : Type} {tag : ν → String} {ofTag? : String → Option ν} {write : α → Value}
  {read : Value → Option α} {entries : List (ν × α)}

theorem keys_entries : (entries.map fun (n, a) => (tag n, write a)).map Prod.fst =
    entries.map fun (n, _) => tag n := by
  rw [List.map_map]
  rfl

theorem written_entries (keys : PlainKeys (entries.map fun (n, _) => tag n))
    (each : ∀ a, (write a).Written) :
    (record (entries.map fun (n, a) => (tag n, write a))).Written := by
  refine written_record (keys_entries ▸ keys) ?_
  intro m member
  obtain ⟨⟨n, a⟩, _, rfl⟩ := List.mem_map.1 member
  exact each a

theorem bind_entries {β : Type} (keys : PlainKeys (entries.map fun (n, _) => tag n))
    (back : ∀ n, ofTag? (tag n) = some n) (each : ∀ n a, (n, a) ∈ entries → read (write a) = some a)
    (next : List (ν × α) → Option β) :
    (do
      let members ← (record (entries.map fun (n, a) => (tag n, write a))).members?
      let found ← members.mapM fun (key, v) => do pure (← ofTag? key, ← read v)
      next found) = next entries := by
  have found : (entries.map fun (n, a) => (tag n, write a)).mapM
      (fun (key, v) => do pure (← ofTag? key, ← read v)) = some entries := by
    apply mapM_map
    rintro ⟨n, a⟩ member
    simp [back, each n a member]
  rw [members?_record (keys_entries ▸ keys), Option.bind_eq_bind, Option.bind_some, found,
    Option.bind_eq_bind, Option.bind_some]

theorem of_mem_entries {members : List (String × Value)} {n : ν} {a : α}
    (h : members.mapM (fun (key, v) => do pure (← ofTag? key, ← read v)) = some entries)
    (member : (n, a) ∈ entries) : ∃ v, read v = some a := by
  obtain ⟨⟨key, v⟩, _, same⟩ := mem_of_mapM h _ member
  simp only [Option.bind_eq_bind, Option.bind_eq_some_iff, Option.pure_def, Option.some_inj,
    Prod.mk.injEq] at same
  obtain ⟨_, _, _, found, rfl, rfl⟩ := same
  exact ⟨v, found⟩

end Entries

mutual

/-- How many arrays and objects there are inside each other. -/
def levels : Value → Nat
  | .arr items => levelsOfItems items + 1
  | .obj members => levelsOfMembers members + 1
  | _ => 0

def levelsOfItems : List Value → Nat
  | [] => 0
  | v :: rest => max (levels v) (levelsOfItems rest)

def levelsOfMembers : List (List Char × Value) → Nat
  | [] => 0
  | (_, v) :: rest => max (levels v) (levelsOfMembers rest)

end

theorem levelsOfItems_le {items : List Value} {n : Nat} :
    levelsOfItems items ≤ n ↔ ∀ v ∈ items, v.levels ≤ n := by
  induction items with
  | nil => simp [levelsOfItems]
  | cons v items ih => rw [levelsOfItems, Nat.max_le, ih, List.forall_mem_cons]

theorem levelsOfMembers_le {members : List (List Char × Value)} {n : Nat} :
    levelsOfMembers members ≤ n ↔ ∀ m ∈ members, m.2.levels ≤ n := by
  induction members with
  | nil => simp [levelsOfMembers]
  | cons m members ih => rw [levelsOfMembers, Nat.max_le, ih, List.forall_mem_cons]

theorem enter?_eq_some {depth inner : Nat} :
    enter? depth = some inner ↔ 0 < inner ∧ depth = inner + 1 := by
  rw [enter?]
  split
  · simp only [reduceCtorEq, false_iff]
    omega
  · rw [Option.some_inj]
    omega

theorem levels_arr_le {items : List Value} {n : Nat} :
    (arr items).levels ≤ n + 1 ↔ ∀ v ∈ items, v.levels ≤ n := by
  rw [levels, Nat.add_le_add_iff_right, levelsOfItems_le]

theorem levels_record_le {members : List (String × Value)} {n : Nat} :
    (record members).levels ≤ n + 1 ↔ ∀ m ∈ members, m.2.levels ≤ n := by
  rw [record, levels, Nat.add_le_add_iff_right, levelsOfMembers_le, List.forall_mem_map]

/-- What is one level above its parts fits a depth that lets the reader in and leaves enough for
each part. -/
theorem lt_iff_enter? {α : Type} {parts : List α} {levelOf : α → Nat} {total depth : Nat}
    (pos : 0 < total) (bound : ∀ n, total ≤ n + 1 ↔ ∀ x ∈ parts, levelOf x ≤ n) :
    total < depth ↔ ∃ inner, enter? depth = some inner ∧ ∀ x ∈ parts, levelOf x < inner := by
  constructor
  · intro fits
    have each := (bound (depth - 2)).1 (by omega)
    refine ⟨depth - 1, enter?_eq_some.2 (by omega), ?_⟩
    intro x member
    have := each x member
    omega
  · rintro ⟨inner, entered, each⟩
    rw [enter?_eq_some] at entered
    have below : ∀ x ∈ parts, levelOf x ≤ inner - 1 := by
      intro x member
      have := each x member
      omega
    have := (bound (inner - 1)).2 below
    omega

theorem levels_arr_lt {items : List Value} {depth : Nat} :
    (arr items).levels < depth ↔
      ∃ inner, enter? depth = some inner ∧ ∀ v ∈ items, v.levels < inner :=
  lt_iff_enter? (Nat.succ_pos _) fun _ => levels_arr_le

theorem levels_record_lt {members : List (String × Value)} {depth : Nat} :
    (record members).levels < depth ↔
      ∃ inner, enter? depth = some inner ∧ ∀ m ∈ members, m.2.levels < inner :=
  lt_iff_enter? (Nat.succ_pos _) fun _ => levels_record_le

end CodeAtlas.Json.Value
