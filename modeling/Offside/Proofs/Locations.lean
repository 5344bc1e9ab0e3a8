import Mathlib.Data.List.Nodup
import Offside.Location

/-!
# Registered sources and their locations

Whatever is registered in whatever order, a name keeps its number, and a location that is made with
it gives back its fields at any later time. Locations as numbers are ordered like their fields.
-/

namespace Offside

open List

namespace Loc

variable {source other : SourceId} {line line' column column' : Nat} {loc loc' : Loc}

theorem make_eq_error_iff :
    (∃ e, make source line column = .error e) ↔ 65535 < line ∨ 1023 < column := by
  unfold make maxLine maxColumn
  split
  · simp_all
  · split <;> simp_all

/-- The fields are read by shifts and masks. -/
theorem fields_eq_masked (loc : Loc) : loc.source.val = (loc.raw >>> 26).toNat ∧
    loc.line = (loc.raw >>> 10 &&& 65535).toNat ∧ loc.column = (loc.raw &&& 1023).toNat := by
  refine ⟨?_, ?_, ?_⟩
  · rw [UInt32.toNat_shiftRight]
    exact (Nat.shiftRight_eq_div_pow _ 26).symm
  · rw [UInt32.toNat_and, UInt32.toNat_shiftRight, Loc.line, ← Nat.shiftRight_eq_div_pow _ 10]
    exact (Nat.and_two_pow_sub_one_eq_mod _ 16).symm
  · rw [UInt32.toNat_and]
    exact (Nat.and_two_pow_sub_one_eq_mod _ 10).symm

section

variable (made : make source line column = .ok loc)
include made

/-- Fields that fit do not run into each other. -/
theorem raw_of_make :
    line ≤ 65535 ∧ column ≤ 1023 ∧ loc.raw.toNat = (source.val * 65536 + line) * 1024 + column := by
  unfold make maxLine maxColumn at made
  split at made
  case isTrue => cases made
  case isFalse lineFits =>
    split at made
    case isTrue => cases made
    case isFalse columnFits =>
      cases made
      refine ⟨Nat.le_of_not_lt lineFits, Nat.le_of_not_lt columnFits, UInt32.toNat_ofNat_of_lt ?_⟩
      have := source.isLt
      unfold UInt32.size
      omega

/-- The word of a location is put together by shifts. -/
theorem shifted_of_make :
    loc.raw =
      UInt32.ofNat source.val <<< 26 ||| UInt32.ofNat line <<< 10 ||| UInt32.ofNat column := by
  obtain ⟨lineFits, columnFits, raw⟩ := raw_of_make made
  have bound := source.isLt
  have lower : line <<< 10 ||| column = line * 1024 + column := by
    rw [← Nat.shiftLeft_add_eq_or_of_lt (by omega), Nat.shiftLeft_eq]
  apply UInt32.toNat_inj.mp
  rw [raw, UInt32.toNat_or, UInt32.toNat_or, UInt32.toNat_shiftLeft, UInt32.toNat_shiftLeft]
  change _ = (source.val % 2 ^ 32) <<< 26 % 2 ^ 32 ||| (line % 2 ^ 32) <<< 10 % 2 ^ 32 |||
    column % 2 ^ 32
  rw [Nat.mod_eq_of_lt (by omega : column < 2 ^ 32), Nat.mod_eq_of_lt (by omega : line < 2 ^ 32),
    Nat.mod_eq_of_lt (by omega : source.val < 2 ^ 32),
    Nat.mod_eq_of_lt (by rw [Nat.shiftLeft_eq]; omega : line <<< 10 < 2 ^ 32),
    Nat.mod_eq_of_lt (by rw [Nat.shiftLeft_eq]; omega : source.val <<< 26 < 2 ^ 32),
    Nat.or_assoc, lower, ← Nat.shiftLeft_add_eq_or_of_lt (by omega), Nat.shiftLeft_eq]
  omega

theorem fields_of_make : loc.source = source ∧ loc.line = line ∧ loc.column = column := by
  obtain ⟨lineFits, columnFits, raw⟩ := raw_of_make made
  refine ⟨Fin.ext ?_, ?_, ?_⟩
  · change loc.raw.toNat / 67108864 = source.val
    omega
  · rw [Loc.line]
    omega
  · rw [Loc.column]
    omega

theorem raw_lt_iff (made' : make other line' column' = .ok loc') :
    loc.raw < loc'.raw ↔
      source < other ∨ source = other ∧ (line < line' ∨ line = line' ∧ column < column') := by
  obtain ⟨lineFits, columnFits, raw⟩ := raw_of_make made
  obtain ⟨lineFits', columnFits', raw'⟩ := raw_of_make made'
  rw [UInt32.lt_iff_toNat_lt, raw, raw', Fin.lt_def, Fin.ext_iff]
  omega

theorem eq_iff_of_make (made' : make other line' column' = .ok loc') :
    loc = loc' ↔ source = other ∧ line = line' ∧ column = column' := by
  constructor
  · rintro rfl
    obtain ⟨rfl, rfl, rfl⟩ := fields_of_make made
    exact fields_of_make made'
  · rintro ⟨rfl, rfl, rfl⟩
    exact Except.ok.inj (made.symm.trans made')

end

end Loc

namespace SourceTable

/-- The table after a registration, which leaves it as it is when it fails. -/
def register (table : SourceTable) (name : String) : SourceTable :=
  match table.add name with
  | .ok (_, grown) => grown
  | .error _ => table

/-- The table after all registrations of a history. -/
def ofHistory (names : List String) : SourceTable :=
  names.foldl register empty

/-- No name stands twice in the table, and there is a number for each. -/
structure Sound (table : SourceTable) : Prop where
  distinct : table.names.Nodup
  bounded : table.size ≤ 64

variable {table : SourceTable} {name : String}

theorem Sound.add_known (sound : table.Sound) {source : SourceId}
    (known : table.names[source.val]? = some name) : table.add name = .ok (source, table) := by
  obtain ⟨inside, rfl⟩ := List.getElem?_eq_some_iff.mp known
  have found : table.names.findIdx (· = table.names[source.val]) = source.val := by
    refine (findIdx_eq inside).mpr ⟨decide_eq_true rfl, fun index before => ?_⟩
    refine decide_eq_false fun same => ?_
    exact Nat.ne_of_lt before ((sound.distinct.getElem_inj_iff).mp same)
  simp [add, found, size, inside]

/-- No room is left for a name. -/
def IsFullFor (table : SourceTable) (name : String) : Prop :=
  name ∉ table.names ∧ table.size = 64

/-- What a registration can do: give the number of the name in a table that goes on, or fail. -/
theorem Sound.add_cases (sound : table.Sound) (name : String) :
    (∃ source next, table.add name = .ok (source, next) ∧ ¬ table.IsFullFor name ∧ next.Sound ∧
      table.names <+: next.names ∧ next.names[source.val]? = some name) ∨
    table.add name = .error .tooManySources ∧ table.IsFullFor name := by
  by_cases known : name ∈ table.names
  · obtain ⟨index, inside, same⟩ := mem_iff_getElem.mp known
    let source : SourceId := ⟨index, Nat.lt_of_lt_of_le inside sound.bounded⟩
    have found : table.names[source.val]? = some name :=
      List.getElem?_eq_some_iff.mpr ⟨inside, same⟩
    exact .inl ⟨source, table, sound.add_known found, fun full => full.1 known, sound, prefix_rfl,
      found⟩
  have behind : table.names.findIdx (· = name) = table.size := by
    refine findIdx_eq_length.mpr fun other member => decide_eq_false ?_
    rintro rfl
    exact known member
  rw [add, behind, if_neg (Nat.lt_irrefl _)]
  by_cases room : table.size < 64
  · rw [dif_pos room]
    refine .inl ⟨_, _, rfl, fun full => Nat.ne_of_lt room full.2, ⟨?_, ?_⟩, prefix_append _ _,
      getElem?_concat_length⟩
    · exact sound.distinct.append (nodup_singleton name) (disjoint_singleton.mpr known)
    · rw [size, length_append]
      exact room
  · rw [dif_neg room]
    exact .inr ⟨rfl, known, Nat.le_antisymm sound.bounded (Nat.le_of_not_lt room)⟩

theorem Sound.register (sound : table.Sound) (name : String) :
    (table.register name).Sound ∧ table.names <+: (table.register name).names := by
  unfold SourceTable.register
  obtain ⟨source, next, added, -, later, grows, -⟩ | ⟨failed, -⟩ := sound.add_cases name
  · rw [added]
    exact ⟨later, grows⟩
  · rw [failed]
    exact ⟨sound, prefix_rfl⟩

theorem Sound.registerAll (sound : table.Sound) (names : List String) :
    (names.foldl SourceTable.register table).Sound ∧
      table.names <+: (names.foldl SourceTable.register table).names := by
  induction names generalizing table with
  | nil => exact ⟨sound, prefix_rfl⟩
  | cons name rest ih =>
    obtain ⟨next, first⟩ := sound.register name
    obtain ⟨last, others⟩ := ih next
    exact ⟨last, first.trans others⟩

theorem sound_ofHistory (names : List String) : (ofHistory names).Sound :=
  (Sound.registerAll ⟨nodup_nil, Nat.zero_le 64⟩ names).1

/-- A number goes on standing for its name. -/
theorem known_ofHistory (earlier later : List String) {source : Nat}
    (known : (ofHistory earlier).names[source]? = some name) :
    (ofHistory (earlier ++ later)).names[source]? = some name := by
  obtain ⟨rest, same⟩ := ((sound_ofHistory earlier).registerAll later).2
  rw [ofHistory, foldl_append, ← ofHistory, ← same]
  exact (getElem?_append_left (List.getElem?_eq_some_iff.mp known).1).trans known

/--
After every history of registrations the names are distinct and at most 64; a registration fails if
and only if 64 other names are known; a name keeps its number; and locations that are made with it
are decoded by every later table and are ordered like their fields.
-/
theorem decodes_ofHistory (earlier later : List String) :
    (ofHistory earlier).names.Nodup ∧ (ofHistory earlier).size ≤ 64 ∧
    (∀ name e, (ofHistory earlier).add name = .error e ↔
      e = .tooManySources ∧ (ofHistory earlier).IsFullFor name) ∧
    (∀ name e, (ofHistory earlier).add name = .error e →
      ofHistory (earlier ++ [name]) = ofHistory earlier) ∧
    (∀ name source next, (ofHistory earlier).add name = .ok (source, next) →
      ofHistory (earlier ++ [name]) = next ∧ next.names[source.val]? = some name) ∧
    (∀ name (source : SourceId), (ofHistory earlier).names[source.val]? = some name →
      (ofHistory (earlier ++ later)).add name = .ok (source, ofHistory (earlier ++ later)) ∧
      ∀ line column loc, Loc.make source line column = .ok loc →
        (ofHistory (earlier ++ later)).position loc = ⟨name, line, column⟩) ∧
    ∀ (source : SourceId) (line column : Nat),
      ((∃ e, Loc.make source line column = .error e) ↔ 65535 < line ∨ 1023 < column) ∧
      Loc.make source (min line 65535) (min column 1023) = .ok (.clamped source line column) ∧
      ∀ loc other line' column' loc', Loc.make source line column = .ok loc →
        Loc.make other line' column' = .ok loc' →
        (loc = loc' ↔ source = other ∧ line = line' ∧ column = column') ∧
        (loc.raw < loc'.raw ↔
          source < other ∨ source = other ∧ (line < line' ∨ line = line' ∧ column < column')) := by
  have sound : (ofHistory earlier).Sound := sound_ofHistory earlier
  have next (name : String) :
      ofHistory (earlier ++ [name]) = (ofHistory earlier).register name := by
    rw [ofHistory, foldl_append]
    rfl
  refine ⟨sound.distinct, sound.bounded, fun name e => ?_, fun name e failed => ?_,
    fun name source later added => ?_, fun name source known => ⟨?_, ?_⟩,
    fun source line column => ⟨Loc.make_eq_error_iff, ?_, ?_⟩⟩
  · obtain ⟨source, later, added, room, -⟩ | ⟨failed, full⟩ := sound.add_cases name
    · simp [added, room]
    · simp [failed, full, eq_comm]
  · rw [next, register, failed]
  · rw [next, register, added]
    obtain ⟨other, last, found, -, -, -, known⟩ | ⟨failed, -⟩ := sound.add_cases name
    · cases added.symm.trans found
      exact ⟨rfl, known⟩
    · cases added.symm.trans failed
  · exact (sound_ofHistory _).add_known (known_ofHistory earlier later known)
  · intro line column loc made
    obtain ⟨rfl, rfl, rfl⟩ := Loc.fields_of_make made
    rw [position, SourceTable.name, known_ofHistory earlier later known]
    rfl
  · exact (if_neg (Nat.not_lt.mpr (Nat.min_le_right _ _))).trans
      (if_neg (Nat.not_lt.mpr (Nat.min_le_right _ _)))
  · exact fun loc other line' column' loc' made made' =>
      ⟨Loc.eq_iff_of_make made made', Loc.raw_lt_iff made made'⟩

end SourceTable

end Offside
