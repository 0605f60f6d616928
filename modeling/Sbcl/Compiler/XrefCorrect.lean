import Sbcl.Compiler.Xref

/-!
# Cross-references: what comes back from packed data

* `mapKinds_write` : the calls for the integers that are written;
* `Entries` : the entries of a kind, which have the numbers of each of its names;
* `differences_perm_iff` : when the differences of some numbers are these numbers again;
* `xref_round_trip_iff` : the tables that are read back as they were.
-/

namespace Sbcl.Xref

open ByteSpec VarInteger List Nat
open List (filter_nil)
open Option (bind_eq_bind bind_eq_some_iff bind_some getD_none getD_some some_inj)

variable {kind' : XrefKind} {index limit m number : ℕ}

/-! ## The integers of packed data -/

section
variable {Name : Type} {tables : CommonNames Name}

theorem encodeKindAndCount_eq {kind : ℕ} (hkind : kind < 8) (count : ℕ) :
    encodeKindAndCount kind count = kind + (count - 1) * 2 ^ 3 := by
  rw [encodeKindAndCount, Nat.lor_comm, ← shiftLeft_add_eq_or_of_lt hkind,
    shiftLeft_eq, Nat.add_comm]

theorem decodeKindAndCount_encode {kind count : ℕ} (hkind : kind < 8) (hcount : 0 < count) :
    decodeKindAndCount (encodeKindAndCount kind count) = (kind, count) := by
  rw [encodeKindAndCount_eq hkind, decodeKindAndCount, ldb_low hkind, shiftRight_eq_div_pow,
    add_mul_div_right _ _ (by decide), show 1 + (kind / 2 ^ 3 + (count - 1)) = count by omega]

variable {nameBits numberBits : ℕ}

theorem encodeIndexAndNumber_eq (hindex : index < 2 ^ nameBits)
    (hnumber : number < 2 ^ numberBits) :
    encodeIndexAndNumber nameBits numberBits index number = index + number * 2 ^ nameBits := by
  rw [encodeIndexAndNumber, dpb_above hindex, mod_eq_of_lt hnumber]

theorem decodeIndexAndNumber_encode (hindex : index < 2 ^ nameBits)
    (hnumber : number < 2 ^ numberBits) :
    decodeIndexAndNumber nameBits numberBits
      (encodeIndexAndNumber nameBits numberBits index number) = (index, number) := by
  rw [encodeIndexAndNumber_eq hindex hnumber, decodeIndexAndNumber, ldb_low hindex,
    ldb_high hindex hnumber]

variable {ns : List ℕ} {octets : List Octet}

theorem writeVarIntegers_append {ms : List ℕ} (h : writeVarIntegers (ms ++ ns) = some octets) :
    ∃ o₁ o₂, writeVarIntegers ms = some o₁ ∧ writeVarIntegers ns = some o₂ ∧ octets = o₁ ++ o₂ := by
  induction ms generalizing octets with
  | nil => exact ⟨[], octets, rfl, h, rfl⟩
  | cons m ms ih =>
    rw [cons_append, writeVarIntegers] at h
    obtain ⟨o, ho, h⟩ := bind_eq_some_iff.1 h
    obtain ⟨o', ho', heq⟩ := bind_eq_some_iff.1 h
    obtain ⟨o₁, o₂, h₁, h₂, rfl⟩ := ih ho'
    refine ⟨o ++ o₁, o₂, ?_, h₂, ?_⟩
    · rw [writeVarIntegers, ho, h₁]
      rfl
    · rw [← some_inj.1 heq, append_assoc]

theorem writeVarIntegers_cons {n : ℕ} (h : writeVarIntegers (n :: ns) = some octets) :
    ∃ o₁ o₂, writeVarInteger n = some o₁ ∧ writeVarIntegers ns = some o₂ ∧ octets = o₁ ++ o₂ := by
  rw [writeVarIntegers] at h
  obtain ⟨o, ho, h⟩ := bind_eq_some_iff.1 h
  obtain ⟨o', ho', heq⟩ := bind_eq_some_iff.1 h
  exact ⟨o, o', ho, ho', (some_inj.1 heq).symm⟩

theorem writeVarIntegers_isSome (ns : List ℕ) : (∃ octets, writeVarIntegers ns = some octets) ↔
    ∀ n ∈ ns, n < 2 ^ 32 := by
  induction ns with
  | nil => simp [writeVarIntegers]
  | cons n ns ih =>
    rw [forall_mem_cons, ← ih]
    constructor
    · rintro ⟨octets, h⟩
      obtain ⟨o₁, o₂, h₁, h₂, -⟩ := writeVarIntegers_cons h
      exact ⟨(writeVarInteger_isSome h₁).1, o₂, h₂⟩
    · rintro ⟨hn, octets, h⟩
      exact ⟨writeLoop n ++ octets, by rw [writeVarIntegers, writeVarInteger, if_pos hn, h]; rfl⟩

theorem mapNumbers_write (kind : XrefKind) (name : Name)
    (h : writeVarIntegers ns = some octets) (rest : List Octet) :
    mapNumbers kind name ns.length (octets ++ rest) =
      some (ns.map fun n => (kind, name, n), rest) := by
  induction ns generalizing octets with
  | nil =>
    obtain rfl := some_inj.1 h
    rfl
  | cons n ns ih =>
    obtain ⟨o₁, o₂, h₁, h₂, rfl⟩ := writeVarIntegers_cons h
    rw [length_cons, mapNumbers, append_assoc, readVarInteger_write h₁, bind_eq_bind, bind_some]
    dsimp only
    rw [ih h₂]
    rfl

theorem length_differences (prev : ℕ) (ns : List ℕ) : (differences prev ns).length = ns.length := by
  induction ns generalizing prev with
  | nil => rfl
  | cons n ns ih => rw [differences, length_cons, length_cons, ih]

/-- The calls for an entry. -/
def entryCalls (kind : XrefKind) (name : Name) (numbers : List ℕ) : List (XrefKind × Name × ℕ) :=
  (differences 0 (numbers.mergeSort fun m n => decide (m ≤ n))).map fun n => (kind, name, n)

/-- The calls for the entries of a kind. -/
def recordCalls (tables : CommonNames Name) (vector : List Name) (kind : XrefKind)
    (entries : List (ℕ × List ℕ)) : List (XrefKind × Name × ℕ) :=
  entries.flatMap fun entry => (indexToName tables vector entry.1).elim [] fun name =>
    entryCalls kind name entry.2

/-- An entry with its index and its count in their bits, and with a name. -/
structure Readable (tables : CommonNames Name) (vector : List Name) (nameBits numberBits : ℕ)
    (entry : ℕ × List ℕ) : Prop where
  index : entry.1 < 2 ^ nameBits
  number : entry.2.length < 2 ^ numberBits
  name : ∃ name, indexToName tables vector entry.1 = some name

variable {vector : List Name}

theorem mapRecords_write (kind : XrefKind) {entries : List (ℕ × List ℕ)}
    (hread : ∀ e ∈ entries, Readable tables vector nameBits numberBits e)
    (h : writeVarIntegers (entries.flatMap (entryIntegers nameBits numberBits)) = some octets)
    (rest : List Octet) :
    mapRecords tables vector nameBits numberBits kind entries.length (octets ++ rest) =
      some (recordCalls tables vector kind entries, rest) := by
  induction entries generalizing octets with
  | nil =>
    obtain rfl := some_inj.1 h
    rfl
  | cons e entries ih =>
    rw [flatMap_cons] at h
    obtain ⟨o₁, o₂, h₁, h₂, rfl⟩ := writeVarIntegers_append h
    obtain ⟨o₃, o₄, h₃, h₄, rfl⟩ := writeVarIntegers_cons h₁
    obtain ⟨he, hread⟩ := forall_mem_cons.1 hread
    obtain ⟨name, hfound⟩ := he.name
    have hlen : (differences 0 (e.2.mergeSort fun m n => decide (m ≤ n))).length = e.2.length := by
      rw [length_differences, length_mergeSort]
    have hmap := mapNumbers_write kind name h₄ (o₂ ++ rest)
    rw [hlen] at hmap
    rw [length_cons, mapRecords, append_assoc, append_assoc, readVarInteger_write h₃, bind_eq_bind,
      bind_some]
    dsimp only
    rw [decodeIndexAndNumber_encode he.index he.number]
    dsimp only
    rw [hfound, bind_eq_bind, bind_some, hmap, bind_eq_bind, bind_some]
    have hcalls : recordCalls tables vector kind (e :: entries) =
        entryCalls kind name e.2 ++ recordCalls tables vector kind entries := by
      rw [recordCalls, flatMap_cons, hfound]
      rfl
    rw [ih hread h₂, hcalls]
    rfl

theorem mapKinds_succ {packed : List Octet} (h : packed ≠ []) :
    mapKinds tables vector nameBits numberBits (limit + 1) packed = (do
      let (integer, packed) ← readVarInteger packed
      let (kindNumber, recordCount) := decodeKindAndCount integer
      let kind ← xrefKinds[kindNumber]?
      let (calls, packed) ← mapRecords tables vector nameBits numberBits kind recordCount packed
      let calls' ← mapKinds tables vector nameBits numberBits limit packed
      some (calls ++ calls')) := by
  cases packed with
  | nil => exact absurd rfl h
  | cons octet packed => rfl

/-- The calls for all kinds. -/
def kindCalls (tables : CommonNames Name) (vector : List Name)
    (entries : List (ℕ × List (ℕ × List ℕ))) : List (XrefKind × Name × ℕ) :=
  entries.flatMap fun k => xrefKinds[k.1]?.elim [] fun kind => recordCalls tables vector kind k.2

theorem mapKinds_write
    {entries : List (ℕ × List (ℕ × List ℕ))}
    (hkind : ∀ k ∈ entries, k.1 < xrefKinds.length ∧ k.2 ≠ [])
    (hread : ∀ k ∈ entries, ∀ e ∈ k.2, Readable tables vector nameBits numberBits e)
    (h : writeVarIntegers (entries.flatMap (kindIntegers nameBits numberBits)) = some octets)
    (hlimit : octets.length ≤ limit) :
    mapKinds tables vector nameBits numberBits limit octets =
      some (kindCalls tables vector entries) := by
  induction entries generalizing octets limit with
  | nil =>
    obtain rfl := some_inj.1 h
    cases limit <;> rfl
  | cons k entries ih =>
    rw [flatMap_cons] at h
    obtain ⟨o₁, o₂, h₁, h₂, rfl⟩ := writeVarIntegers_append h
    obtain ⟨o₃, o₄, h₃, h₄, rfl⟩ := writeVarIntegers_cons h₁
    have hne := (writeVarInteger_isSome h₃).2
    obtain ⟨⟨hk, hentries⟩, hkind⟩ := forall_mem_cons.1 hkind
    obtain ⟨hread, hreads⟩ := forall_mem_cons.1 hread
    have hpos := length_pos_of_ne_nil hne
    rw [length_append, length_append] at hlimit
    obtain ⟨limit, rfl⟩ : ∃ m, limit = m + 1 := ⟨limit - 1, by omega⟩
    have hih := ih hkind hreads h₂ (show o₂.length ≤ limit by omega)
    have hget : xrefKinds[k.1]? = some xrefKinds[k.1] := getElem?_eq_getElem hk
    have hrecords := mapRecords_write xrefKinds[k.1] hread h₄ o₂
    have hread :
        readVarInteger (o₃ ++ o₄ ++ o₂) = some (encodeKindAndCount k.1 k.2.length, o₄ ++ o₂) := by
      rw [append_assoc, readVarInteger_write h₃]
    have hlt : k.1 < 8 := hk.trans (by decide)
    have hne' : o₃ ++ o₄ ++ o₂ ≠ [] :=
      fun h => hne (append_eq_nil_iff.1 (append_eq_nil_iff.1 h).1).1
    rw [mapKinds_succ hne', hread, bind_eq_bind, bind_some]
    dsimp only
    rw [decodeKindAndCount_encode hlt (length_pos_of_ne_nil hentries)]
    dsimp only
    rw [hget, bind_eq_bind, bind_some, hrecords, bind_eq_bind, bind_some]
    have hcalls : kindCalls tables vector (k :: entries) =
        recordCalls tables vector xrefKinds[k.1] k.2 ++ kindCalls tables vector entries := by
      rw [kindCalls, flatMap_cons, hget]
      rfl
    rw [hih, hcalls]
    rfl

end

/-! ## The entries of a kind -/

section
variable {Name : Type} [DecidableEq Name] (tables : CommonNames Name)

/-- A name that is common, or that has a place among some names. -/
def Known (vector : List Name) (name : Name) : Prop := (tables.byName name).isSome ∨ name ∈ vector

instance (vector : List Name) (name : Name) : Decidable (Known tables vector name) :=
  inferInstanceAs (Decidable (_ ∨ _))

/-- The index of a name that is known. -/
def indexIn (vector : List Name) (name : Name) : ℕ :=
  (tables.byName name).getD (vector.idxOf name + tables.byIndex.length)

/-- The names that are not common, each of them once and in their order. -/
def localNames (names : List Name) : List Name :=
  (names.filter fun name => tables.byName name = none).eraseDups

variable {tables}

omit tables in
theorem eraseDups_snoc (names : List Name) (name : Name) :
    (names ++ [name]).eraseDups = if name ∈ names then names.eraseDups else names.eraseDups ++
      [name] := by
  rw [eraseDups_append]
  by_cases h : name ∈ names
  · simp [List.removeAll, h]
  · simp [List.removeAll, h, eraseDups_cons]

variable {names : List Name} {name : Name}

theorem mem_localNames :
    name ∈ localNames tables names ↔ name ∈ names ∧ tables.byName name = none := by
  rw [localNames, mem_eraseDups, mem_filter, decide_eq_true_iff]

theorem known_localNames :
    Known tables (localNames tables names) name ↔ (tables.byName name).isSome ∨ name ∈ names := by
  unfold Known
  rw [mem_localNames]
  cases tables.byName name <;> simp

theorem localNames_snoc (names : List Name) (name : Name) :
    localNames tables (names ++ [name]) =
      if Known tables (localNames tables names) name then localNames tables names
        else localNames tables names ++ [name] := by
  by_cases hname : tables.byName name = none
  · have hsnoc : localNames tables (names ++ [name]) =
        if name ∈ names.filter (fun name => tables.byName name = none) then localNames tables names
        else localNames tables names ++ [name] := by
      unfold localNames
      rw [filter_append, filter_cons_of_pos (by simpa using hname), filter_nil, eraseDups_snoc]
    rw [hsnoc]
    simp only [mem_filter, known_localNames, hname, Option.isSome_none, Bool.false_eq_true,
      false_or, decide_true, and_true]
  · rw [if_pos (.inl (Option.isSome_iff_ne_none.2 hname))]
    unfold localNames
    rw [filter_append, filter_cons_of_neg (by simpa using hname), filter_nil, append_nil]

variable {vector : List Name}

theorem indexToName_indexIn (h : Known tables vector name) :
    indexToName tables vector (indexIn tables vector name) = some name := by
  unfold indexToName indexIn
  cases hname : tables.byName name with
  | some i =>
    have hi := tables.consistent name i hname
    rw [getD_some, if_pos (List.getElem?_eq_some_iff.1 hi).1]
    exact hi
  | none =>
    have hmem : name ∈ vector := by
      rcases h with h | h
      · rw [hname] at h
        cases h
      · exact h
    rw [getD_none, if_neg (by omega), Nat.add_sub_cancel]
    exact getElem?_idxOf hmem

theorem indexIn_injective {a b : Name} (ha : Known tables vector a) (hb : Known tables vector b)
    (h : indexIn tables vector a = indexIn tables vector b) : a = b := by
  have := indexToName_indexIn ha
  rw [h, indexToName_indexIn hb, some_inj] at this
  exact this.symm

theorem indexIn_append (h : Known tables vector name) (more : List Name) :
    indexIn tables (vector ++ more) name = indexIn tables vector name := by
  unfold indexIn
  cases hname : tables.byName name with
  | some i => rfl
  | none =>
    have hmem : name ∈ vector := by
      rcases h with h | h
      · rw [hname] at h
        cases h
      · exact h
    rw [idxOf_append_of_mem hmem]

theorem nameToIndex_eq (names : List Name) (name : Name) :
    nameToIndex tables (localNames tables names) name =
      (indexIn tables (localNames tables (names ++ [name])) name,
        decide (Known tables (localNames tables names) name),
        localNames tables (names ++ [name])) := by
  rw [localNames_snoc]
  unfold nameToIndex indexIn
  by_cases hname : tables.byName name = none
  · by_cases hmem : name ∈ localNames tables names
    · rw [if_pos (.inr hmem), decide_eq_true (.inr hmem), hname]
      exact if_pos hmem
    have hnot : ¬ Known tables (localNames tables names) name := by
      rintro (h | h)
      · rw [hname] at h
        cases h
      · exact hmem h
    rw [if_neg hnot, decide_eq_false hnot, hname, getD_none, idxOf_append_of_notMem hmem]
    dsimp only
    rw [if_neg hmem]
    simp
  · obtain ⟨i, hi⟩ := Option.ne_none_iff_exists'.1 hname
    have hknown : Known tables (localNames tables names) name := .inl (by rw [hi]; rfl)
    rw [if_pos hknown, decide_eq_true hknown, hi]
    rfl

/-- The numbers of a name, as they are collected. -/
def numbersOf (records : List (Name × ℕ)) (name : Name) : List ℕ :=
  ((records.filter fun record => record.1 = name).map Prod.snd).foldl (fun numbers number =>
    pushnew number numbers) []

variable {n : ℕ} {numbers : List ℕ}

omit [DecidableEq Name] in
theorem mem_pushnew : m ∈ pushnew n numbers ↔ m = n ∨ m ∈ numbers := by
  unfold pushnew
  split
  · constructor
    · exact .inr
    · rintro (rfl | h)
      · assumption
      · exact h
  · exact mem_cons

omit [DecidableEq Name] in
theorem nodup_pushnew (h : numbers.Nodup) : (pushnew n numbers).Nodup := by
  unfold pushnew
  split
  · exact h
  · exact nodup_cons.2 ⟨‹_›, h⟩

theorem numbersOf_snoc (records : List (Name × ℕ)) (record : Name × ℕ) (name : Name) :
    numbersOf (records ++ [record]) name =
      if record.1 = name then pushnew record.2 (numbersOf records name)
        else numbersOf records name := by
  unfold numbersOf
  rw [filter_append]
  by_cases h : record.1 = name
  · rw [filter_cons_of_pos (by simpa using h), filter_nil, map_append, foldl_append, if_pos h]
    rfl
  · rw [filter_cons_of_neg (by simpa using h), filter_nil, append_nil, if_neg h]

variable {records : List (Name × ℕ)}

theorem mem_numbersOf :
    n ∈ numbersOf records name ↔ (name, n) ∈ records := by
  induction records using reverseRecOn with
  | nil => simp [numbersOf]
  | append_singleton records record ih =>
    obtain ⟨name', m⟩ := record
    rw [numbersOf_snoc, mem_append, mem_singleton, Prod.mk.injEq]
    split
    · rename_i h
      rw [mem_pushnew, ih]
      constructor
      · rintro (rfl | h')
        · exact .inr ⟨h.symm, rfl⟩
        · exact .inl h'
      · rintro (h' | ⟨-, rfl⟩)
        · exact .inr h'
        · exact .inl rfl
    · rename_i h
      rw [ih]
      constructor
      · exact .inl
      · rintro (h' | ⟨rfl, -⟩)
        · exact h'
        · exact absurd rfl h

theorem nodup_numbersOf (records : List (Name × ℕ)) (name : Name) :
    (numbersOf records name).Nodup := by
  induction records using reverseRecOn with
  | nil => exact nodup_nil
  | append_singleton records record ih =>
    rw [numbersOf_snoc]
    split
    · exact nodup_pushnew ih
    · exact ih

theorem numbersOf_eq_nil (h : name ∉ records.map Prod.fst) :
    numbersOf records name = [] :=
  eq_nil_iff_forall_not_mem.2 fun n hn => h (mem_map.2 ⟨(name, n), mem_numbersOf.1 hn, rfl⟩)

/-- The entries of a kind have one index for each name of its records, with the numbers of the name.
-/
structure Entries (tables : CommonNames Name) (vector : List Name) (records : List (Name × ℕ))
    (entries : List (ℕ × List ℕ)) : Prop where
  known : ∀ name ∈ records.map Prod.fst, Known tables vector name
  nodup : (entries.map Prod.fst).Nodup
  mem : ∀ entry, entry ∈ entries ↔
    ∃ name ∈ records.map Prod.fst, entry = (indexIn tables vector name, numbersOf records name)

variable {entries : List (ℕ × List ℕ)}

theorem Entries.grow
    (h : Entries tables vector records entries) (more : List Name) :
    Entries tables (vector ++ more) records entries := by
  have hknown : ∀ name ∈ records.map Prod.fst, Known tables (vector ++ more) name :=
    fun name hname =>
    (h.known name hname).imp id fun hmem => mem_append_left _ hmem
  refine ⟨hknown, h.nodup, fun entry => ?_⟩
  rw [h.mem]
  constructor
  · rintro ⟨name, hname, rfl⟩
    exact ⟨name, hname, by rw [indexIn_append (h.known name hname)]⟩
  · rintro ⟨name, hname, rfl⟩
    exact ⟨name, hname, by rw [indexIn_append (h.known name hname)]⟩

omit [DecidableEq Name] in
theorem pushNumber_eq_none (h : index ∉ entries.map Prod.fst) :
    pushNumber index number entries = none := by
  induction entries with
  | nil => rfl
  | cons entry entries ih =>
    rw [map_cons, mem_cons, not_or] at h
    rw [pushNumber, if_neg (fun he => h.1 he.symm), ih h.2]
    rfl

omit [DecidableEq Name] in
theorem pushNumber_eq_some
    (hnodup : (entries.map Prod.fst).Nodup) (hmem : (index, numbers) ∈ entries) :
    pushNumber index number entries =
      some (entries.map fun entry => if entry.1 = index then (entry.1,
        pushnew number entry.2) else entry, (pushnew number numbers).length) := by
  induction entries with
  | nil => cases hmem
  | cons entry entries ih =>
    rw [map_cons, nodup_cons] at hnodup
    rw [pushNumber]
    by_cases hi : entry.1 = index
    · have hentry : (index, numbers) = entry := by
        rcases mem_cons.1 hmem with h | h
        · exact h
        · exact absurd (mem_map.2 ⟨_, h, hi.symm⟩) hnodup.1
      have hrest :
          (entries.map fun entry => if entry.1 = index then (entry.1, pushnew number entry.2)
            else entry) = entries := by
        rw [List.map_congr_left (g := id), List.map_id]
        intro other hother
        rw [if_neg]
        · rfl
        · intro h
          exact hnodup.1 (mem_map.2 ⟨other, hother, h.trans hi.symm⟩)
      rw [if_pos hi, map_cons, if_pos hi, hrest, ← hentry]
    · have hmem' : (index, numbers) ∈ entries := by
        rcases mem_cons.1 hmem with h | h
        · exact absurd (congrArg Prod.fst h).symm hi
        · exact h
      rw [if_neg hi, ih hnodup.2 hmem', map_cons, if_neg hi]
      rfl

variable (tables) in
theorem localNames_grow (names : List Name) (name : Name) :
    ∃ more, localNames tables (names ++ [name]) = localNames tables names ++ more := by
  rw [localNames_snoc]
  split
  · exact ⟨[], (append_nil _).symm⟩
  · exact ⟨[name], rfl⟩

theorem known_of_mem (h : name ∈ names) : Known tables (localNames tables names) name :=
  known_localNames.2 (.inr h)

theorem Entries.index_mem
    (h : Entries tables vector records entries) (hknown : Known tables vector name) :
    indexIn tables vector name ∈ entries.map Prod.fst ↔ name ∈ records.map Prod.fst := by
  rw [mem_map]
  constructor
  · rintro ⟨entry, hentry, hindex⟩
    obtain ⟨other, hother, rfl⟩ := (h.mem entry).1 hentry
    rwa [← indexIn_injective (h.known other hother) hknown hindex]
  · intro hname
    exact ⟨_, (h.mem _).2 ⟨name, hname, rfl⟩, rfl⟩

theorem Entries.push
    (h : Entries tables vector records entries) (hname : name ∈ records.map Prod.fst) (number : ℕ) :
    Entries tables vector (records ++ [(name, number)]) (entries.map fun entry =>
      if entry.1 = indexIn tables vector name then (entry.1, pushnew number entry.2)
        else entry) := by
  have hnames : ∀ other, other ∈ (records ++ [(name, number)]).map Prod.fst ↔
      other ∈ records.map Prod.fst := by
    intro other
    rw [map_append, mem_append, map_singleton, mem_singleton]
    constructor
    · rintro (h | rfl)
      · exact h
      · exact hname
    · exact .inl
  have hentry : ∀ other ∈ records.map Prod.fst,
      (if indexIn tables vector other = indexIn tables vector name then
        (indexIn tables vector other, pushnew number (numbersOf records other))
        else (indexIn tables vector other, numbersOf records other)) =
      (indexIn tables vector other, numbersOf (records ++ [(name, number)]) other) := by
    intro other hother
    rw [numbersOf_snoc]
    by_cases heq : other = name
    · rw [heq, if_pos rfl, if_pos rfl]
    · rw [if_neg fun hi => heq (indexIn_injective (h.known other hother) (h.known name hname) hi),
        if_neg fun hn => heq hn.symm]
  refine ⟨fun other hother => h.known other ((hnames other).1 hother), ?_, fun entry => ?_⟩
  · rw [List.map_map, List.map_congr_left (g := Prod.fst)]
    · exact h.nodup
    · intro entry _
      dsimp only [Function.comp]
      split <;> rfl
  · rw [mem_map]
    constructor
    · rintro ⟨old, hold, rfl⟩
      obtain ⟨other, hother, rfl⟩ := (h.mem old).1 hold
      exact ⟨other, (hnames other).2 hother, hentry other hother⟩
    · rintro ⟨other, hother, rfl⟩
      have hother' := (hnames other).1 hother
      exact ⟨_, (h.mem _).2 ⟨other, hother', rfl⟩, hentry other hother'⟩

theorem Entries.cons
    (h : Entries tables vector records entries) (hknown : Known tables vector name)
    (hname : name ∉ records.map Prod.fst) (number : ℕ) :
    Entries tables vector (records ++ [(name, number)])
      ((indexIn tables vector name, pushnew number []) :: entries) := by
  have hnames : ∀ other, other ∈ (records ++ [(name, number)]).map Prod.fst ↔ other = name ∨
      other ∈ records.map Prod.fst := by
    intro other
    rw [map_append, mem_append, map_singleton, mem_singleton, or_comm]
  have hself : numbersOf (records ++ [(name, number)]) name = pushnew number [] := by
    rw [numbersOf_snoc, if_pos rfl, numbersOf_eq_nil hname]
  have hother : ∀ other ∈ records.map Prod.fst, numbersOf (records ++ [(name, number)]) other =
      numbersOf records other := by
    intro other hother
    rw [numbersOf_snoc, if_neg]
    rintro rfl
    exact hname hother
  refine ⟨fun other hother => ?_, ?_, fun entry => ?_⟩
  · rcases (hnames other).1 hother with rfl | hother
    · exact hknown
    · exact h.known other hother
  · rw [map_cons, nodup_cons]
    exact ⟨fun hmem => hname ((h.index_mem hknown).1 hmem), h.nodup⟩
  rw [mem_cons, h.mem]
  constructor
  · rintro (rfl | ⟨other, hmem, rfl⟩)
    · exact ⟨name, (hnames name).2 (.inl rfl), by rw [hself]⟩
    · exact ⟨other, (hnames other).2 (.inr hmem), by rw [hother other hmem]⟩
  rintro ⟨other, hmem, rfl⟩
  rcases (hnames other).1 hmem with rfl | hmem
  · exact .inl (by rw [hself])
  · exact .inr ⟨other, hmem, by rw [hother other hmem]⟩

theorem collectRecord_spec (names : List Name) (collected : Collected Name)
    (hnames : collected.names = localNames tables names)
    (h : Entries tables collected.names records entries)
    (name : Name) (number : ℕ) :
    ∃ entries', collectRecord tables (collected, entries) (name, number) =
        (⟨localNames tables (names ++ [name]),
          max collected.maxIndex (indexIn tables (localNames tables (names ++ [name])) name),
          max collected.maxNumber (numbersOf (records ++ [(name, number)]) name).length⟩,
            entries') ∧
      Entries tables (localNames tables (names ++ [name]))
        (records ++ [(name, number)]) entries' := by
  obtain ⟨more, hmore⟩ := localNames_grow tables names name
  have hgrown : Entries tables (localNames tables (names ++ [name])) records entries := by
    rw [hmore, ← hnames]
    exact h.grow more
  have hknown : Known tables (localNames tables (names ++ [name])) name := known_of_mem (by simp)
  unfold collectRecord
  dsimp only
  rw [hnames, nameToIndex_eq]
  by_cases hname : name ∈ records.map Prod.fst
  · have hfound : decide (Known tables (localNames tables names) name) = true := by
      rw [decide_eq_true_iff, ← hnames]
      exact h.known name hname
    have hentry := (hgrown.mem _).2 ⟨name, hname, rfl⟩
    rw [if_pos hfound, pushNumber_eq_some hgrown.nodup hentry, getD_some]
    have hcount : numbersOf (records ++ [(name, number)]) name =
        pushnew number (numbersOf records name) := by
      rw [numbersOf_snoc, if_pos rfl]
    exact ⟨_, by rw [hcount], hgrown.push hname number⟩
  · have hnone :
        pushNumber (indexIn tables (localNames tables (names ++ [name])) name) number entries =
          none :=
      pushNumber_eq_none fun hmem => hname ((hgrown.index_mem hknown).1 hmem)
    have hcount : numbersOf (records ++ [(name, number)]) name = pushnew number [] := by
      rw [numbersOf_snoc, if_pos rfl, numbersOf_eq_nil hname]
    rw [hnone, ite_self, getD_none]
    exact ⟨_, by rw [hcount], hgrown.cons hknown hname number⟩

/-! ## All kinds -/

omit [DecidableEq Name] in
theorem foldl_max_le {l : List ℕ} {a m : ℕ} : l.foldl max a ≤ m ↔ a ≤ m ∧ ∀ x ∈ l, x ≤ m := by
  induction l generalizing a with
  | nil => simp
  | cons x l ih =>
    rw [foldl_cons, ih, max_le_iff, forall_mem_cons, and_assoc]

variable (tables) in
/-- The largest index of some names, all of them known. -/
def maxIndexOf (names : List Name) : ℕ :=
  (names.map (indexIn tables (localNames tables names))).foldl max 0

/-- The largest count of numbers of one name. -/
def maxCount (records : List (Name × ℕ)) : ℕ :=
  (records.map fun record => (numbersOf records record.1).length).foldl max 0

theorem maxIndexOf_snoc (names : List Name) (name : Name) :
    maxIndexOf tables (names ++ [name]) =
      max (maxIndexOf tables names)
        (indexIn tables (localNames tables (names ++ [name])) name) := by
  obtain ⟨more, hmore⟩ := localNames_grow tables names name
  unfold maxIndexOf
  rw [map_append, foldl_append, map_singleton]
  have hsame : names.map (indexIn tables (localNames tables (names ++ [name]))) =
      names.map (indexIn tables (localNames tables names)) := by
    refine List.map_congr_left fun other hother => ?_
    rw [hmore]
    exact indexIn_append (known_of_mem hother) more
  rw [hsame]
  rfl

theorem length_numbersOf_le (records : List (Name × ℕ)) (record : Name × ℕ) (name : Name) :
    (numbersOf records name).length ≤ (numbersOf (records ++ [record]) name).length := by
  rw [numbersOf_snoc]
  split
  · unfold pushnew
    split
    · exact le_rfl
    · exact le_succ _
  · exact le_rfl

theorem maxCount_snoc (records : List (Name × ℕ)) (record : Name × ℕ) :
    maxCount (records ++ [record]) = max (maxCount records)
      (numbersOf (records ++ [record]) record.1).length := by
  refine eq_of_forall_ge_iff fun m => ?_
  unfold maxCount
  rw [max_le_iff, foldl_max_le, foldl_max_le]
  simp only [List.forall_mem_map, mem_append, mem_singleton]
  constructor
  · rintro ⟨h0, h⟩
    exact ⟨⟨h0, fun other hother => (length_numbersOf_le records record other.1).trans
      (h other (.inl hother))⟩, h record (.inr rfl)⟩
  rintro ⟨⟨h0, h⟩, hlast⟩
  refine ⟨h0, fun other hother => ?_⟩
  by_cases hname : record.1 = other.1
  · rw [← hname]
    exact hlast
  rcases hother with hother | rfl
  · rw [numbersOf_snoc, if_neg hname]
    exact h other hother
  · exact absurd rfl hname

variable (tables) in
theorem collectRecords_spec (names : List Name) (maxNumber : ℕ) (records : List (Name × ℕ)) :
    ∃ entries, records.foldl (collectRecord tables)
      (⟨localNames tables names, maxIndexOf tables names, maxNumber⟩, []) =
        (⟨localNames tables (names ++ records.map Prod.fst),
          maxIndexOf tables (names ++ records.map Prod.fst),
          max maxNumber (maxCount records)⟩, entries) ∧
      Entries tables (localNames tables (names ++ records.map Prod.fst)) records entries := by
  induction records using reverseRecOn with
  | nil =>
    refine ⟨[], by simp [maxCount], ⟨fun name hname => ?_, nodup_nil, fun entry => ?_⟩⟩
    · exact absurd hname not_mem_nil
    · simp
  | append_singleton records record ih =>
    obtain ⟨entries, heq, h⟩ := ih
    obtain ⟨name, number⟩ := record
    obtain ⟨entries', heq', h'⟩ := collectRecord_spec (names ++ records.map Prod.fst)
      ⟨localNames tables (names ++ records.map Prod.fst),
        maxIndexOf tables (names ++ records.map Prod.fst),
        max maxNumber (maxCount records)⟩ rfl h name number
    have hnames : names ++ (records ++ [(name, number)]).map Prod.fst = names ++
        records.map Prod.fst ++ [name] := by
      rw [map_append, map_singleton, append_assoc]
    refine ⟨entries', ?_, by rw [hnames]; exact h'⟩
    rw [foldl_append, heq, foldl_cons, foldl_nil, heq', hnames, maxIndexOf_snoc,
      maxCount_snoc, max_assoc]

/-- The names of a table. -/
def namesOf (plist : List (XrefKind × List (Name × ℕ))) : List Name :=
  plist.flatMap fun kind => kind.2.map Prod.fst

/-- The largest count of numbers of one name in one kind. -/
def tableCount : List (XrefKind × List (Name × ℕ)) → ℕ
  | [] => 0
  | kind :: plist => max (maxCount kind.2) (tableCount plist)

variable (tables) in
/-- The entries of a kind of the table. -/
def IsKind (vector : List Name) (entries : ℕ × List (ℕ × List ℕ))
    (kind : XrefKind × List (Name × ℕ)) : Prop :=
  entries.1 = xrefKinds.idxOf kind.1 ∧ Entries tables vector kind.2 entries.2

variable (tables) in
theorem localNames_append (names more : List Name) :
    ∃ rest, localNames tables (names ++ more) = localNames tables names ++ rest := by
  induction more using reverseRecOn with
  | nil => exact ⟨[], by simp⟩
  | append_singleton more name ih =>
    obtain ⟨rest, hrest⟩ := ih
    obtain ⟨last, hlast⟩ := localNames_grow tables (names ++ more) name
    exact ⟨rest ++ last, by rw [← append_assoc, hlast, hrest, append_assoc]⟩

variable (tables) in
theorem collectEntries_spec (names : List Name) (maxNumber : ℕ)
    (plist : List (XrefKind × List (Name × ℕ))) (entries : List (ℕ × List (ℕ × List ℕ))) :
    ∃ new, collectEntries tables plist (⟨localNames tables names, maxIndexOf tables names,
      maxNumber⟩, entries) =
        (⟨localNames tables (names ++ namesOf plist), maxIndexOf tables (names ++ namesOf plist),
          max maxNumber (tableCount plist)⟩, new.reverse ++ entries) ∧
      List.Forall₂ (IsKind tables (localNames tables (names ++ namesOf plist))) new
        (plist.filter fun kind => kind.2 ≠ []) := by
  induction plist generalizing names maxNumber entries with
  | nil => exact ⟨[], by simp [collectEntries, namesOf, tableCount], .nil⟩
  | cons kind plist ih =>
    obtain ⟨kind, records⟩ := kind
    have hnames : namesOf ((kind, records) :: plist) = records.map Prod.fst ++ namesOf plist := rfl
    rw [collectEntries]
    by_cases hempty : records = []
    · subst hempty
      obtain ⟨new, heq, h⟩ := ih names maxNumber entries
      refine ⟨new, ?_, ?_⟩
      · rw [if_pos rfl, heq]
        simp [hnames, tableCount, maxCount]
      · rw [filter_cons_of_neg (by simp)]
        exact h
    · obtain ⟨kindEntries, hrecords, hkind⟩ := collectRecords_spec tables names maxNumber records
      obtain ⟨new, heq, h⟩ := ih (names ++ records.map Prod.fst) (max maxNumber (maxCount records))
        ((xrefKinds.idxOf kind, kindEntries) :: entries)
      rw [append_assoc, ← hnames] at heq h
      obtain ⟨rest, hrest⟩ :=
        localNames_append tables (names ++ records.map Prod.fst) (namesOf plist)
      rw [append_assoc, ← hnames] at hrest
      refine ⟨(xrefKinds.idxOf kind, kindEntries) :: new, ?_, ?_⟩
      · rw [if_neg hempty, hrecords]
        dsimp only
        rw [heq, reverse_cons, append_assoc, tableCount, max_assoc]
        rfl
      · rw [filter_cons_of_pos (by simpa using hempty)]
        refine .cons ⟨rfl, ?_⟩ h
        rw [hrest]
        exact hkind.grow rest

/-! ## Differences -/

omit [DecidableEq Name]

/-- The numbers as they are written. -/
def sortNumbers (numbers : List ℕ) : List ℕ := numbers.mergeSort fun m n => decide (m ≤ n)

theorem sortNumbers_perm (numbers : List ℕ) : (sortNumbers numbers).Perm numbers :=
  mergeSort_perm _ _

theorem pairwise_sortNumbers (numbers : List ℕ) : (sortNumbers numbers).Pairwise (· ≤ ·) :=
  pairwise_mergeSort' (· ≤ ·) numbers

theorem sum_differences {prev : ℕ} (h : (prev :: numbers).Pairwise (· ≤ ·)) :
    prev + (differences prev numbers).sum = numbers.getLastD prev := by
  induction numbers generalizing prev with
  | nil => rfl
  | cons n numbers ih =>
    obtain ⟨hprev, htail⟩ := pairwise_cons.1 h
    have hle := hprev n mem_cons_self
    rw [differences, sum_cons, ← Nat.add_assoc, Nat.add_sub_cancel' hle, ih htail, getLastD_cons]

/-- One number at most that is not zero. -/
def AtMostOneNonzero (numbers : List ℕ) : Prop :=
  ∀ m ∈ numbers, ∀ n ∈ numbers, m ≠ 0 → n ≠ 0 → m = n

theorem atMostOneNonzero_of_perm (h : (differences 0 (sortNumbers numbers)).Perm numbers) :
    AtMostOneNonzero numbers := by
  have hsum :=
    sum_differences (pairwise_cons.2 ⟨fun n _ => Nat.zero_le n, pairwise_sortNumbers numbers⟩)
  rw [h.sum_eq, ← (sortNumbers_perm numbers).sum_eq, Nat.zero_add] at hsum
  have hone : ∀ m ∈ sortNumbers numbers, m ≠ 0 → m = (sortNumbers numbers).getLastD 0 := by
    rcases eq_nil_or_concat (sortNumbers numbers) with hnil | ⟨init, last, hlast⟩
    · intro m hm
      rw [hnil] at hm
      cases hm
    rw [concat_eq_append] at hlast
    rw [hlast] at hsum ⊢
    rw [List.sum_append, sum_singleton] at hsum
    have hlastD : (init ++ [last]).getLastD 0 = last := by simp
    rw [hlastD] at hsum ⊢
    intro m hm hm0
    rcases mem_append.1 hm with hm | hm
    · exact absurd (List.sum_eq_zero_iff_forall_eq_nat.1 (by omega) m hm) hm0
    · exact mem_singleton.1 hm
  intro m hm n hn hm0 hn0
  rw [hone m ((sortNumbers_perm numbers).mem_iff.2 hm) hm0,
    hone n ((sortNumbers_perm numbers).mem_iff.2 hn) hn0]

theorem differences_perm (hnodup : numbers.Nodup) (h : AtMostOneNonzero numbers) :
    (differences 0 (sortNumbers numbers)).Perm numbers := by
  refine List.Perm.trans ?_ (sortNumbers_perm numbers)
  have hsorted := pairwise_sortNumbers numbers
  have hnodup' := (sortNumbers_perm numbers).nodup_iff.2 hnodup
  have h' : AtMostOneNonzero (sortNumbers numbers) := fun m hm n hn =>
    h m ((sortNumbers_perm numbers).mem_iff.1 hm) n ((sortNumbers_perm numbers).mem_iff.1 hn)
  generalize sortNumbers numbers = sorted at hsorted hnodup' h'
  match sorted with
  | [] => exact .refl _
  | [a] => exact .refl _
  | [a, b] =>
    have hab : a ≤ b := by simpa using hsorted
    have hne : a ≠ b := by simpa using hnodup'
    have ha : a = 0 := by
      by_contra ha
      exact hne (h' a (by simp) b (by simp) ha (by omega))
    subst a
    exact .refl _
  | a :: b :: c :: rest =>
    exfalso
    have hab : a ≤ b := rel_of_pairwise_cons hsorted (by simp)
    have hac : b ≤ c := rel_of_pairwise_cons (pairwise_cons.1 hsorted).2 (by simp)
    simp only [nodup_cons, mem_cons, not_or] at hnodup'
    exact hnodup'.2.1.1 (h' b (by simp) c (by simp) (by omega) (by omega))

theorem differences_perm_iff (hnodup : numbers.Nodup) :
    (∀ n, n ∈ differences 0 (sortNumbers numbers) ↔ n ∈ numbers) ↔ AtMostOneNonzero numbers := by
  constructor
  · intro h
    have hsub : numbers.Subperm (differences 0 (sortNumbers numbers)) :=
      hnodup.subperm fun n hn => (h n).2 hn
    refine atMostOneNonzero_of_perm (hsub.perm_of_length_le ?_).symm
    rw [length_differences, (sortNumbers_perm numbers).length_eq]
  · intro h n
    exact (differences_perm hnodup h).mem_iff

end

/-! ## Round trips -/

/-- A table of cross-references, as a property list. -/
structure XrefTable (Name : Type) where
  plist : List (XrefKind × List (Name × ℕ))
  nodup : (plist.map Prod.fst).Nodup

section
variable {Name : Type} [DecidableEq Name] (tables : CommonNames Name)

def XrefTable.Has (table : XrefTable Name) (kind : XrefKind) (name : Name) (number : ℕ) : Prop :=
  ∃ records, (kind, records) ∈ table.plist ∧ (name, number) ∈ records

/-- What is packed is read back: the function is called once for each kind, name and number of the
table. -/
def RoundTrip (table : XrefTable Name) : Prop :=
  ∃ data calls, packXrefData tables table.plist = some data ∧
    xrefCalls tables data = some calls ∧ calls.Nodup ∧
    ∀ kind name number, (kind, name, number) ∈ calls ↔ table.Has kind name number

/-- No name has two numbers in a kind, other than zero. -/
def NumbersKept (table : XrefTable Name) : Prop :=
  ∀ kind name m n, table.Has kind name m → table.Has kind name n → m ≠ 0 → n ≠ 0 → m = n

/-- All integers have 32 bits at most: the kind and the count of its names, the index of a name and
the count of its numbers, and the numbers. -/
def Fits (table : XrefTable Name) : Prop :=
  let names := namesOf table.plist
  let nameBits := integerLength (maxIndexOf tables names)
  ∀ kind records, (kind, records) ∈ table.plist → records ≠ [] →
    xrefKinds.idxOf kind + ((records.map Prod.fst).toFinset.card - 1) * 2 ^ 3 < 2 ^ 32 ∧
      ∀ name number, (name, number) ∈ records → number < 2 ^ 32 ∧
        indexIn tables (localNames tables names) name + (numbersOf records name).length *
        2 ^ nameBits < 2 ^ 32

variable {tables}

variable {kind : XrefKind}

omit [DecidableEq Name] in
theorem XrefTable.records_unique (table : XrefTable Name) {r₁ r₂ : List (Name × ℕ)}
    (h₁ : (kind, r₁) ∈ table.plist) (h₂ : (kind, r₂) ∈ table.plist) : r₁ = r₂ :=
  congrArg Prod.snd (inj_on_of_nodup_map table.nodup h₁ h₂ rfl)

variable {α β : Type} {l₁ : List α} {l₂ : List β}

omit [DecidableEq Name] in
theorem forall₂_left {R : α → β → Prop} (h : List.Forall₂ R l₁ l₂) {a : α}
    (ha : a ∈ l₁) : ∃ b ∈ l₂, R a b := by
  induction h with
  | nil => cases ha
  | @cons x y l₁ l₂ hxy _ ih =>
    rcases mem_cons.1 ha with rfl | ha
    · exact ⟨y, mem_cons_self, hxy⟩
    · obtain ⟨b, hb, hR⟩ := ih ha
      exact ⟨b, mem_cons_of_mem _ hb, hR⟩

theorem xrefKinds_getElem (kind : XrefKind) : xrefKinds[xrefKinds.idxOf kind]? = some kind := by
  cases kind <;> rfl

theorem idxOf_xrefKinds_lt (kind : XrefKind) : xrefKinds.idxOf kind < xrefKinds.length :=
  (List.getElem?_eq_some_iff.1 (xrefKinds_getElem kind)).1

theorem idxOf_xrefKinds_injective {a b : XrefKind} (h : xrefKinds.idxOf a = xrefKinds.idxOf b) :
    a = b := by
  have := xrefKinds_getElem a
  rw [h, xrefKinds_getElem, some_inj] at this
  exact this.symm

def XrefTable.nameBits (tables : CommonNames Name) (table : XrefTable Name) : ℕ :=
  integerLength (maxIndexOf tables (namesOf table.plist))

def XrefTable.numberBits (table : XrefTable Name) : ℕ := integerLength (tableCount table.plist)

/-- The integers that are written for a table with these entries. -/
def XrefTable.integers (tables : CommonNames Name) (table : XrefTable Name)
    (entries : List (ℕ × List (ℕ × List ℕ))) : List ℕ :=
  table.nameBits tables :: table.numberBits ::
    entries.flatMap (kindIntegers (table.nameBits tables) table.numberBits)

/-- The entries of a table, in the order in which they are written. -/
structure TableEntries (tables : CommonNames Name) (table : XrefTable Name)
    (entries : List (ℕ × List (ℕ × List ℕ))) : Prop where
  sound : ∀ k ∈ entries, ∃ kind records, (kind, records) ∈ table.plist ∧ records ≠ [] ∧
    IsKind tables (localNames tables (namesOf table.plist)) k (kind, records)
  complete : ∀ kind records, (kind, records) ∈ table.plist → records ≠ [] →
    ∃ k ∈ entries, IsKind tables (localNames tables (namesOf table.plist)) k (kind, records)
  nodup : (entries.map Prod.fst).Nodup

variable (tables) in
theorem packXrefData_spec (table : XrefTable Name) (hne : table.plist ≠ []) :
    ∃ entries, TableEntries tables table entries ∧
      packXrefData tables table.plist =
        (writeVarIntegers (table.integers tables entries)).map fun octets =>
        some ⟨octets, localNames tables (namesOf table.plist)⟩ := by
  obtain ⟨new, heq, hnew⟩ := collectEntries_spec tables [] 0 table.plist []
  rw [nil_append, append_nil, Nat.zero_max] at heq
  rw [nil_append] at hnew
  refine ⟨new.reverse, ⟨fun k hk => ?_, fun kind records hmem hrecords => ?_, ?_⟩, ?_⟩
  · obtain ⟨⟨kind, records⟩, hmem, hkind⟩ := forall₂_left hnew (mem_reverse.1 hk)
    obtain ⟨hmem, hrecords⟩ := mem_filter.1 hmem
    exact ⟨kind, records, hmem, by simpa using hrecords, hkind⟩
  · obtain ⟨k, hk, hkind⟩ :=
      forall₂_left hnew.flip (a := (kind, records)) (mem_filter.2 ⟨hmem, by simpa using hrecords⟩)
    exact ⟨k, mem_reverse.2 hk, hkind⟩
  · have hkinds : new.map Prod.fst =
        ((table.plist.filter fun kind => kind.2 ≠ []).map Prod.fst).map xrefKinds.idxOf := by
      clear heq
      generalize table.plist.filter (fun kind => kind.2 ≠ []) = kinds at hnew ⊢
      induction hnew with
      | nil => rfl
      | cons hkind _ ih => rw [map_cons, map_cons, map_cons, ih, hkind.1]
    rw [map_reverse, nodup_reverse, hkinds]
    exact (table.nodup.sublist (filter_sublist.map _)).map fun a b => idxOf_xrefKinds_injective
  · unfold packXrefData
    rw [if_neg hne]
    have hinit : (⟨[], 0, 0⟩ : Collected Name) = ⟨localNames tables [], maxIndexOf tables [], 0⟩ :=
      rfl
    rw [hinit, heq]
    rfl

variable {name : Name} {n : ℕ}

omit [DecidableEq Name] in
theorem mem_entryCalls {name' : Name} {numbers : List ℕ} :
    (kind, name, n) ∈ entryCalls kind' name' numbers ↔
      kind' = kind ∧ name' = name ∧ n ∈ differences 0 (sortNumbers numbers) := by
  unfold entryCalls
  rw [mem_map]
  constructor
  · rintro ⟨m, hm, heq⟩
    rw [Prod.mk.injEq, Prod.mk.injEq] at heq
    obtain ⟨rfl, rfl, rfl⟩ := heq
    exact ⟨rfl, rfl, hm⟩
  · rintro ⟨rfl, rfl, hn⟩
    exact ⟨n, hn, rfl⟩

variable {vector : List Name} {records : List (Name × ℕ)}

theorem mem_recordCalls {entries : List (ℕ × List ℕ)}
    (h : Entries tables vector records entries) :
    (kind, name, n) ∈ recordCalls tables vector kind' entries ↔
      kind' = kind ∧ name ∈ records.map Prod.fst ∧
      n ∈ differences 0 (sortNumbers (numbersOf records name)) := by
  unfold recordCalls
  rw [mem_flatMap]
  constructor
  · rintro ⟨entry, hentry, hcall⟩
    obtain ⟨other, hother, rfl⟩ := (h.mem entry).1 hentry
    rw [indexToName_indexIn (h.known other hother)] at hcall
    obtain ⟨rfl, rfl, hn⟩ := mem_entryCalls.1 hcall
    exact ⟨rfl, hother, hn⟩
  · rintro ⟨rfl, hname, hn⟩
    refine ⟨_, (h.mem _).2 ⟨name, hname, rfl⟩, ?_⟩
    rw [indexToName_indexIn (h.known name hname)]
    exact mem_entryCalls.2 ⟨rfl, rfl, hn⟩

variable {table : XrefTable Name}

theorem mem_kindCalls {entries : List (ℕ × List (ℕ × List ℕ))}
    (h : TableEntries tables table entries) :
    (kind, name, n) ∈ kindCalls tables (localNames tables (namesOf table.plist)) entries ↔
      ∃ records, (kind, records) ∈ table.plist ∧ name ∈ records.map Prod.fst ∧
        n ∈ differences 0 (sortNumbers (numbersOf records name)) := by
  unfold kindCalls
  rw [mem_flatMap]
  constructor
  · rintro ⟨k, hk, hcall⟩
    obtain ⟨kind', records, hmem, -, hindex, hentries⟩ := h.sound k hk
    rw [hindex, xrefKinds_getElem] at hcall
    obtain ⟨rfl, hname, hn⟩ := (mem_recordCalls hentries).1 hcall
    exact ⟨records, hmem, hname, hn⟩
  · rintro ⟨records, hmem, hname, hn⟩
    have hne : records ≠ [] := by
      rintro rfl
      cases hname
    obtain ⟨k, hk, hindex, hentries⟩ := h.complete kind records hmem hne
    refine ⟨k, hk, ?_⟩
    rw [hindex, xrefKinds_getElem]
    exact (mem_recordCalls hentries).2 ⟨rfl, hname, hn⟩

/-- The function is called once for each, when the differences of the numbers are the numbers. -/
theorem nodup_kindCalls {entries : List (ℕ × List (ℕ × List ℕ))}
    (h : TableEntries tables table entries)
    (hperm : ∀ kind records name, (kind, records) ∈ table.plist →
      (differences 0 (sortNumbers (numbersOf records name))).Perm (numbersOf records name)) :
    (kindCalls tables (localNames tables (namesOf table.plist)) entries).Nodup := by
  unfold kindCalls
  rw [nodup_flatMap]
  refine ⟨fun k hk => ?_, ?_⟩
  · obtain ⟨kind, records, hmem, -, hindex, hentries⟩ := h.sound k hk
    rw [hindex, xrefKinds_getElem]
    change (recordCalls tables _ kind k.2).Nodup
    unfold recordCalls
    rw [nodup_flatMap]
    refine ⟨fun entry hentry => ?_, ?_⟩
    · obtain ⟨name, hname, rfl⟩ := (hentries.mem entry).1 hentry
      rw [indexToName_indexIn (hentries.known name hname)]
      refine ((hperm kind records name hmem).nodup_iff.2 (nodup_numbersOf records name)).map
        fun m n heq => ?_
      exact congrArg (fun call => call.2.2) heq
    refine List.Pairwise.imp_of_mem ?_ (pairwise_map.1 hentries.nodup)
    intro a b ha hb hne
    obtain ⟨x, hx, rfl⟩ := (hentries.mem a).1 ha
    obtain ⟨y, hy, rfl⟩ := (hentries.mem b).1 hb
    rw [Function.onFun, indexToName_indexIn (hentries.known x hx),
      indexToName_indexIn (hentries.known y hy)]
    rintro ⟨kind', name, n⟩ hcall hcall'
    obtain ⟨-, rfl, -⟩ := mem_entryCalls.1 hcall
    obtain ⟨-, rfl, -⟩ := mem_entryCalls.1 hcall'
    exact hne rfl
  · refine List.Pairwise.imp_of_mem ?_ (pairwise_map.1 h.nodup)
    intro a b ha hb hne
    obtain ⟨kind, records, -, -, hindex, hentries⟩ := h.sound a ha
    obtain ⟨kind', records', -, -, hindex', hentries'⟩ := h.sound b hb
    rw [Function.onFun, hindex, hindex', xrefKinds_getElem, xrefKinds_getElem]
    rintro ⟨kind'', name, n⟩ hcall hcall'
    obtain ⟨rfl, -⟩ := (mem_recordCalls hentries).1 hcall
    obtain ⟨rfl, -⟩ := (mem_recordCalls hentries').1 hcall'
    exact hne (hindex.trans hindex'.symm)

theorem lt_two_pow_integerLength (n : ℕ) : n < 2 ^ integerLength n := lt_size_self n

theorem integerLength_lt (h : n < 2 ^ 32) : integerLength n < 2 ^ 32 :=
  (size_le.2 h).trans_lt (by decide)

theorem indexIn_le_maxIndexOf {names : List Name} (h : name ∈ names) :
    indexIn tables (localNames tables names) name ≤ maxIndexOf tables names :=
  (foldl_max_le.1 le_rfl).2 _ (mem_map.2 ⟨name, h, rfl⟩)

omit [DecidableEq Name] in
theorem mem_namesOf {plist : List (XrefKind × List (Name × ℕ))}
    (h : (kind, records) ∈ plist) (hname : name ∈ records.map Prod.fst) : name ∈ namesOf plist :=
  mem_flatMap.2 ⟨_, h, hname⟩

theorem tableCount_le {plist : List (XrefKind × List (Name × ℕ))} {m : ℕ} :
    tableCount plist ≤ m ↔ ∀ kind records name, (kind, records) ∈ plist →
      name ∈ records.map Prod.fst → (numbersOf records name).length ≤ m := by
  induction plist with
  | nil => simp [tableCount]
  | cons k plist ih =>
    rw [tableCount, max_le_iff, ih, maxCount, foldl_max_le]
    simp only [List.forall_mem_map]
    constructor
    · rintro ⟨⟨-, hhead⟩, htail⟩ kind records name hmem hname
      rcases mem_cons.1 hmem with rfl | hmem
      · obtain ⟨record, hrecord, rfl⟩ := mem_map.1 hname
        exact hhead record hrecord
      · exact htail kind records name hmem hname
    · intro h
      refine ⟨⟨Nat.zero_le m, fun record hrecord => ?_⟩, fun kind records name hmem hname => ?_⟩
      · exact h k.1 k.2 record.1 mem_cons_self (mem_map_of_mem hrecord)
      · exact h kind records name (mem_cons_of_mem _ hmem) hname

theorem Entries.length_eq {entries : List (ℕ × List ℕ)}
    (h : Entries tables vector records entries) :
    entries.length = (records.map Prod.fst).toFinset.card := by
  have himage : (entries.map Prod.fst).toFinset =
      (records.map Prod.fst).toFinset.image (indexIn tables vector) := by
    ext i
    rw [mem_toFinset, Finset.mem_image, mem_map]
    constructor
    · rintro ⟨entry, hentry, rfl⟩
      obtain ⟨name, hname, rfl⟩ := (h.mem entry).1 hentry
      exact ⟨name, mem_toFinset.2 hname, rfl⟩
    · rintro ⟨name, hname, rfl⟩
      exact ⟨_, (h.mem _).2 ⟨name, mem_toFinset.1 hname, rfl⟩, rfl⟩
  have hcard := toFinset_card_of_nodup h.nodup
  rw [himage, length_map, Finset.card_image_of_injOn] at hcard
  · exact hcard.symm
  · intro a ha b hb hab
    exact indexIn_injective (h.known a (mem_toFinset.1 ha)) (h.known b (mem_toFinset.1 hb)) hab

theorem Entries.ne_nil {entries : List (ℕ × List ℕ)}
    (h : Entries tables vector records entries) (hne : records ≠ []) : entries ≠ [] := by
  obtain ⟨record, rest, rfl⟩ := exists_cons_of_ne_nil hne
  intro hnil
  have hmem := (h.mem _).2 ⟨record.1, by simp, rfl⟩
  rw [hnil] at hmem
  cases hmem

theorem Entries.forall_iff {entries : List (ℕ × List ℕ)}
    (h : Entries tables vector records entries) {p : ℕ × List ℕ → Prop} :
    (∀ e ∈ entries, p e) ↔ ∀ name ∈ records.map Prod.fst,
      p (indexIn tables vector name, numbersOf records name) := by
  constructor
  · intro hall name hname
    exact hall _ ((h.mem _).2 ⟨name, hname, rfl⟩)
  · intro hall e he
    obtain ⟨name, hname, rfl⟩ := (h.mem e).1 he
    exact hall name hname

variable (tables) in
theorem XrefTable.bits
    (hmem : (kind, records) ∈ table.plist) (hname : name ∈ records.map Prod.fst) :
    indexIn tables (localNames tables (namesOf table.plist)) name < 2 ^ table.nameBits tables ∧
      (numbersOf records name).length < 2 ^ table.numberBits :=
  ⟨(indexIn_le_maxIndexOf (mem_namesOf hmem hname)).trans_lt (lt_two_pow_integerLength _),
    (tableCount_le.1 le_rfl kind records name hmem hname).trans_lt (lt_two_pow_integerLength _)⟩

theorem mapPackedXrefData_write {entries : List (ℕ × List (ℕ × List ℕ))}
    (h : TableEntries tables table entries) {octets : List Octet}
    (hwrite : writeVarIntegers (table.integers tables entries) = some octets) :
    mapPackedXrefData tables ⟨octets, localNames tables (namesOf table.plist)⟩ =
      some (kindCalls tables (localNames tables (namesOf table.plist)) entries) := by
  obtain ⟨o₁, o₂, h₁, h₂, rfl⟩ := writeVarIntegers_cons hwrite
  obtain ⟨o₃, o₄, h₃, h₄, rfl⟩ := writeVarIntegers_cons h₂
  unfold mapPackedXrefData
  rw [readVarInteger_write h₁, bind_eq_bind, bind_some]
  dsimp only
  rw [readVarInteger_write h₃, bind_some]
  refine mapKinds_write (fun k hk => ?_) (fun k hk => ?_) h₄ le_rfl
  · obtain ⟨kind, records, -, hne, hindex, hentries⟩ := h.sound k hk
    refine ⟨?_, hentries.ne_nil hne⟩
    rw [hindex]
    exact idxOf_xrefKinds_lt kind
  · obtain ⟨kind, records, hmem, -, -, hentries⟩ := h.sound k hk
    refine hentries.forall_iff.2 fun name hname => ?_
    have hbits := table.bits tables hmem hname
    exact ⟨hbits.1, hbits.2, name, indexToName_indexIn (hentries.known name hname)⟩

theorem fits_iff {entries : List (ℕ × List (ℕ × List ℕ))} (h : TableEntries tables table entries)
    (hperm : ∀ kind records name, (kind, records) ∈ table.plist →
      (differences 0 (sortNumbers (numbersOf records name))).Perm (numbersOf records name)) :
    (∀ n ∈ table.integers tables entries, n < 2 ^ 32) ↔ Fits tables table := by
  have hkind : ∀ k kind records, (kind, records) ∈ table.plist →
      IsKind tables (localNames tables (namesOf table.plist)) k (kind, records) →
      ((∀ n ∈ kindIntegers (table.nameBits tables) table.numberBits k, n < 2 ^ 32) ↔
        xrefKinds.idxOf kind + ((records.map Prod.fst).toFinset.card - 1) * 2 ^ 3 < 2 ^ 32 ∧
          ∀ name number, (name, number) ∈ records → number < 2 ^ 32 ∧
            indexIn tables (localNames tables (namesOf table.plist)) name +
              (numbersOf records name).length * 2 ^ table.nameBits tables < 2 ^ 32) := by
    rintro k kind records hmem ⟨hindex, hentries⟩
    rw [kindIntegers, forall_mem_cons, forall_mem_flatMap, hentries.forall_iff, hindex,
      hentries.length_eq, encodeKindAndCount_eq ((idxOf_xrefKinds_lt kind).trans (by decide))]
    refine and_congr_right fun _ => ?_
    simp only [entryIntegers, forall_mem_cons]
    constructor
    · intro hall name number hrecord
      have hname : name ∈ records.map Prod.fst := mem_map_of_mem (f := Prod.fst) hrecord
      have hbits := table.bits tables hmem hname
      obtain ⟨hentry, hnumbers⟩ := hall name hname
      rw [encodeIndexAndNumber_eq hbits.1 hbits.2] at hentry
      exact ⟨hnumbers number ((hperm kind records name hmem).mem_iff.2 (mem_numbersOf.2 hrecord)),
        hentry⟩
    · intro hall name hname
      have hbits := table.bits tables hmem hname
      rw [encodeIndexAndNumber_eq hbits.1 hbits.2]
      obtain ⟨⟨name, number⟩, hrecord, rfl⟩ := mem_map.1 hname
      refine ⟨(hall name number hrecord).2, fun n hn => (hall name n ?_).1⟩
      exact mem_numbersOf.1 ((hperm kind records name hmem).mem_iff.1 hn)
  rw [XrefTable.integers, forall_mem_cons, forall_mem_cons, forall_mem_flatMap]
  constructor
  · rintro ⟨-, -, hall⟩ kind records hmem hne
    obtain ⟨k, hk, hkinds⟩ := h.complete kind records hmem hne
    exact (hkind k kind records hmem hkinds).1 (hall k hk)
  intro hfits
  have hindex : maxIndexOf tables (namesOf table.plist) < 2 ^ 32 := by
    refine lt_of_le_pred (by decide) (foldl_max_le.2 ⟨Nat.zero_le _,
      List.forall_mem_map.2 fun name hname => ?_⟩)
    obtain ⟨⟨kind, records⟩, hmem, hname⟩ := mem_flatMap.1 hname
    obtain ⟨⟨name, number⟩, hrecord, rfl⟩ := mem_map.1 hname
    have := ((hfits kind records hmem (ne_nil_of_mem hrecord)).2 name number hrecord).2
    exact le_pred_of_lt ((Nat.le_add_right _ _).trans_lt this)
  have hcount : tableCount table.plist < 2 ^ 32 := by
    refine lt_of_le_pred (by decide) (tableCount_le.2 fun kind records name hmem hname => ?_)
    obtain ⟨⟨name, number⟩, hrecord, rfl⟩ := mem_map.1 hname
    have := ((hfits kind records hmem (ne_nil_of_mem hrecord)).2 name number hrecord).2
    refine le_pred_of_lt (lt_of_le_of_lt ?_ this)
    exact (Nat.le_mul_of_pos_right _ (Nat.two_pow_pos _)).trans (Nat.le_add_left _ _)
  refine ⟨integerLength_lt hindex, integerLength_lt hcount, fun k hk => ?_⟩
  obtain ⟨kind, records, hmem, hne, hkinds⟩ := h.sound k hk
  exact (hkind k kind records hmem hkinds).2 (hfits kind records hmem hne)

theorem atMostOneNonzero_iff (table : XrefTable Name) :
    NumbersKept table ↔ ∀ kind records name, (kind, records) ∈ table.plist →
      AtMostOneNonzero (numbersOf records name) := by
  constructor
  · intro h kind records name hmem m hm n hn
    exact h kind name m n ⟨records, hmem, mem_numbersOf.1 hm⟩ ⟨records, hmem, mem_numbersOf.1 hn⟩
  · rintro h kind name m n ⟨r₁, h₁, hm⟩ ⟨r₂, h₂, hn⟩
    obtain rfl := table.records_unique h₁ h₂
    exact h kind r₁ name h₁ m (mem_numbersOf.2 hm) n (mem_numbersOf.2 hn)

variable (tables) in
theorem round_trip_iff (table : XrefTable Name) : RoundTrip tables table ↔ NumbersKept table ∧
    Fits tables table := by
  by_cases hne : table.plist = []
  · have hnone : ∀ kind records, (kind, records) ∉ table.plist := fun kind records hmem => by
      rw [hne] at hmem
      cases hmem
    refine iff_of_true ⟨none, [], ?_, rfl, nodup_nil, fun kind name number => ?_⟩ ⟨?_, ?_⟩
    · rw [packXrefData, if_pos hne]
    · refine iff_of_false not_mem_nil ?_
      rintro ⟨records, hmem, -⟩
      exact hnone kind records hmem
    · rintro kind name m n ⟨records, hmem, -⟩
      exact absurd hmem (hnone kind records)
    · intro kind records hmem
      exact absurd hmem (hnone kind records)
  · obtain ⟨entries, hentries, hpack⟩ := packXrefData_spec tables table hne
    constructor
    · rintro ⟨data, calls, hdata, hcalls, -, hmem⟩
      rw [hpack, Option.map_eq_some_iff] at hdata
      obtain ⟨octets, hwrite, rfl⟩ := hdata
      have hread := mapPackedXrefData_write hentries hwrite
      obtain rfl : kindCalls tables (localNames tables (namesOf table.plist)) entries = calls :=
        some_inj.1 (hread.symm.trans hcalls)
      have hone : ∀ kind records name, (kind, records) ∈ table.plist →
          AtMostOneNonzero (numbersOf records name) := by
        intro kind records name hrecords
        by_cases hname : name ∈ records.map Prod.fst
        · refine (differences_perm_iff (nodup_numbersOf records name)).1 fun n => ?_
          have := hmem kind name n
          rw [mem_kindCalls hentries] at this
          constructor
          · intro hn
            obtain ⟨records', hrecords', hn'⟩ := this.1 ⟨records, hrecords, hname, hn⟩
            obtain rfl := table.records_unique hrecords hrecords'
            exact mem_numbersOf.2 hn'
          · intro hn
            obtain ⟨records', hrecords', -, hn'⟩ := this.2 ⟨records, hrecords, mem_numbersOf.1 hn⟩
            obtain rfl := table.records_unique hrecords hrecords'
            exact hn'
        · rw [numbersOf_eq_nil hname]
          intro m hm
          cases hm
      refine ⟨(atMostOneNonzero_iff table).2 hone,
        (fits_iff hentries fun kind records name hrecords => ?_).1 ?_⟩
      · exact differences_perm (nodup_numbersOf records name) (hone kind records name hrecords)
      · exact (writeVarIntegers_isSome _).1 ⟨octets, hwrite⟩
    · rintro ⟨hkept, hfits⟩
      have hperm : ∀ kind records name, (kind, records) ∈ table.plist →
          (differences 0 (sortNumbers (numbersOf records name))).Perm (numbersOf records name) :=
        fun kind records name hrecords =>
          differences_perm (nodup_numbersOf records name)
            ((atMostOneNonzero_iff table).1 hkept kind records name hrecords)
      obtain ⟨octets, hwrite⟩ := (writeVarIntegers_isSome _).2 ((fits_iff hentries hperm).2 hfits)
      refine ⟨some ⟨octets, localNames tables (namesOf table.plist)⟩,
        kindCalls tables (localNames tables (namesOf table.plist)) entries, ?_,
        mapPackedXrefData_write hentries hwrite,
        nodup_kindCalls hentries hperm, fun kind name number => ?_⟩
      · rw [hpack, hwrite]
        rfl
      rw [mem_kindCalls hentries]
      constructor
      · rintro ⟨records, hrecords, -, hn⟩
        exact ⟨records, hrecords, mem_numbersOf.1 ((hperm kind records name hrecords).mem_iff.1 hn)⟩
      · rintro ⟨records, hrecords, hn⟩
        exact ⟨records, hrecords, mem_map_of_mem (f := Prod.fst) hn,
          (hperm kind records name hrecords).mem_iff.2 (mem_numbersOf.2 hn)⟩

/-! ## Packing again -/

omit [DecidableEq Name] in
theorem appendRecord_cases (kind : XrefKind) (record : Name × ℕ)
    (plist : List (XrefKind × List (Name × ℕ))) :
    appendRecord kind record plist = none ∧ kind ∉ plist.map Prod.fst ∨
      ∃ plist', appendRecord kind record plist = some plist' ∧
        plist'.map Prod.fst = plist.map Prod.fst ∧
        ∀ k r, (∃ records, (k, records) ∈ plist' ∧ r ∈ records) ↔
          (∃ records, (k, records) ∈ plist ∧ r ∈ records) ∨ k = kind ∧ r = record := by
  induction plist with
  | nil => exact .inl ⟨rfl, not_mem_nil⟩
  | cons head plist ih =>
    obtain ⟨k, records⟩ := head
    rw [appendRecord]
    by_cases hk : k = kind
    · subst hk
      refine .inr ⟨_, if_pos rfl, rfl, fun k' r => ?_⟩
      simp only [mem_cons, Prod.mk.injEq]
      constructor
      · rintro ⟨records', ⟨rfl, rfl⟩ | hmem, hr⟩
        · rcases mem_append.1 hr with hr | hr
          · exact .inl ⟨records, .inl ⟨rfl, rfl⟩, hr⟩
          · exact .inr ⟨rfl, mem_singleton.1 hr⟩
        · exact .inl ⟨records', .inr hmem, hr⟩
      · rintro (⟨records', ⟨rfl, rfl⟩ | hmem, hr⟩ | ⟨rfl, rfl⟩)
        · exact ⟨_, .inl ⟨rfl, rfl⟩, mem_append_left _ hr⟩
        · exact ⟨records', .inr hmem, hr⟩
        · exact ⟨_, .inl ⟨rfl, rfl⟩, mem_append_right _ (mem_singleton.2 rfl)⟩
    · rw [if_neg hk]
      rcases ih with ⟨hnone, hnot⟩ | ⟨plist', hsome, hfst, hmem⟩
      · refine .inl ⟨by rw [hnone]; rfl, ?_⟩
        rw [map_cons, mem_cons, not_or]
        exact ⟨fun h => hk h.symm, hnot⟩
      refine .inr ⟨_, by rw [hsome]; rfl, by rw [map_cons, map_cons, hfst], fun k' r => ?_⟩
      have := hmem k' r
      simp only [mem_cons, Prod.mk.injEq]
      constructor
      · rintro ⟨records', ⟨rfl, rfl⟩ | hmem', hr⟩
        · exact .inl ⟨_, .inl ⟨rfl, rfl⟩, hr⟩
        · rcases this.1 ⟨records', hmem', hr⟩ with ⟨records'', h, hr⟩ | h
          · exact .inl ⟨records'', .inr h, hr⟩
          · exact .inr h
      · rintro (⟨records', ⟨rfl, rfl⟩ | hmem', hr⟩ | h)
        · exact ⟨_, .inl ⟨rfl, rfl⟩, hr⟩
        · obtain ⟨records'', h, hr⟩ := this.2 (.inl ⟨records', hmem', hr⟩)
          exact ⟨records'', .inr h, hr⟩
        · obtain ⟨records'', h, hr⟩ := this.2 (.inr h)
          exact ⟨records'', .inr h, hr⟩

omit [DecidableEq Name] in
theorem unpackCalls_spec (calls : List (XrefKind × Name × ℕ)) :
    ((unpackCalls calls).map Prod.fst).Nodup ∧
      ∀ k r, (∃ records, (k, records) ∈ unpackCalls calls ∧ r ∈ records) ↔ (k, r) ∈ calls := by
  induction calls using reverseRecOn with
  | nil => exact ⟨nodup_nil, by simp [unpackCalls]⟩
  | append_singleton calls call ih =>
    obtain ⟨kind, record⟩ := call
    obtain ⟨hnodup, hmem⟩ := ih
    have hstep : unpackCalls (calls ++ [(kind, record)]) =
        (appendRecord kind record (unpackCalls calls)).getD ((kind, [record]) ::
          unpackCalls calls) := by
      unfold unpackCalls
      rw [foldl_append]
      rfl
    rw [hstep]
    rcases appendRecord_cases kind record (unpackCalls calls) with ⟨hnone, hnot⟩ | ⟨plist',
      hsome, hfst, hmem'⟩
    · rw [hnone, getD_none, map_cons, nodup_cons]
      refine ⟨⟨hnot, hnodup⟩, fun k r => ?_⟩
      rw [mem_append, ← hmem, mem_singleton, Prod.mk.injEq]
      simp only [mem_cons, Prod.mk.injEq]
      constructor
      · rintro ⟨records, ⟨rfl, rfl⟩ | h, hr⟩
        · exact .inr ⟨rfl, mem_singleton.1 hr⟩
        · exact .inl ⟨records, h, hr⟩
      · rintro (⟨records, h, hr⟩ | ⟨rfl, rfl⟩)
        · exact ⟨records, .inr h, hr⟩
        · exact ⟨_, .inl ⟨rfl, rfl⟩, mem_singleton.2 rfl⟩
    · rw [hsome, getD_some, hfst]
      refine ⟨hnodup, fun k r => ?_⟩
      rw [hmem', hmem, mem_append, mem_singleton]
      exact or_congr_right Prod.mk_inj.symm

/-- The table that the calls are stored in. -/
def unpackTable (calls : List (XrefKind × Name × ℕ)) : XrefTable Name :=
  ⟨unpackCalls calls, (unpackCalls_spec calls).1⟩

/-- `repack-xref` comes to its end, and the data of each function means what it meant before. -/
def RepackKept (tables : CommonNames Name) (compactNameCount : ℕ)
    (data : List (Packed Name)) : Prop :=
  ∃ new packed, repackXref tables compactNameCount data = some (new, packed) ∧
    List.Forall₂ (fun old data' =>
    ∃ calls calls', mapPackedXrefData tables old = some calls ∧
      xrefCalls new data' = some calls' ∧ calls'.Nodup ∧
      ∀ call, call ∈ calls' ↔ call ∈ calls) data packed

/-- All data is read with an entry at least, and what is read can be packed and read with the names
that are referenced most. -/
def Repackable (tables : CommonNames Name) (compactNameCount : ℕ)
    (data : List (Packed Name)) : Prop :=
  ∃ unpacked, data.mapM (mapPackedXrefData tables) = some unpacked ∧ [] ∉ unpacked ∧
    ∀ calls ∈ unpacked, NumbersKept (unpackTable calls) ∧
      Fits (CommonNames.ofNames (newNames compactNameCount (unpacked.foldl countNames [])))
      (unpackTable calls)

omit [DecidableEq Name] in
theorem mapM_eq_some_iff {f : α → Option β} {l : List α} {l' : List β} :
    l.mapM f = some l' ↔ List.Forall₂ (fun a b => f a = some b) l l' := by
  induction l generalizing l' with
  | nil =>
    rw [mapM_nil]
    constructor
    · intro h
      rw [← some_inj.1 h]
      exact .nil
    · rintro ⟨⟩
      rfl
  | cons a l ih =>
    rw [mapM_cons]
    constructor
    · intro h
      obtain ⟨b, hb, h⟩ := bind_eq_some_iff.1 h
      obtain ⟨bs, hbs, h⟩ := bind_eq_some_iff.1 h
      rw [← some_inj.1 h]
      exact .cons hb (ih.1 hbs)
    · rintro (_ | ⟨hb, hbs⟩)
      rw [hb, ih.2 hbs]
      rfl

omit [DecidableEq Name] in
theorem forall₂_trans_mem {γ : Type} {A : α → β → Prop} {B : β → γ → Prop} {C : α → γ → Prop}
    {l₃ : List γ} (hA : List.Forall₂ A l₁ l₂) (hB : List.Forall₂ B l₂ l₃)
    (hC : List.Forall₂ C l₁ l₃) : ∀ b ∈ l₂, ∃ a c, A a b ∧ B b c ∧ C a c := by
  induction hA generalizing l₃ with
  | nil =>
    intro b hb
    cases hb
  | @cons a b l₁ l₂ hab _ ih =>
    rcases hB with _ | ⟨hbc, hB⟩
    rcases hC with _ | ⟨hac, hC⟩
    intro b' hb'
    rcases mem_cons.1 hb' with rfl | hb'
    · exact ⟨a, _, hab, hbc, hac⟩
    · exact ih hB hC b' hb'

omit [DecidableEq Name] in
theorem forall₂_of_exists {R : α → β → Prop} {l : List α} (h : ∀ a ∈ l, ∃ b, R a b) :
    ∃ l', List.Forall₂ R l l' := by
  induction l with
  | nil => exact ⟨[], .nil⟩
  | cons a l ih =>
    obtain ⟨b, hb⟩ := h a mem_cons_self
    obtain ⟨l', hl'⟩ := ih fun a ha => h a (mem_cons_of_mem _ ha)
    exact ⟨b :: l', .cons hb hl'⟩

omit [DecidableEq Name] in
theorem forall₂_comp {γ : Type} {A : α → β → Prop} {B : β → γ → Prop} {C : α → γ → Prop}
    {l₃ : List γ} (hA : List.Forall₂ A l₁ l₂) (hB : List.Forall₂ B l₂ l₃)
    (h : ∀ a b c, A a b → B b c → C a c) : List.Forall₂ C l₁ l₃ := by
  induction hA generalizing l₃ with
  | nil =>
    cases hB
    exact .nil
  | cons hab _ ih =>
    rcases hB with _ | ⟨hbc, hB⟩
    exact .cons (h _ _ _ hab hbc) (ih hB)

theorem roundTrip_unpackTable (new : CommonNames Name) (calls : List (XrefKind × Name × ℕ)) :
    RoundTrip new (unpackTable calls) ↔ ∃ data calls',
      packXrefData new (unpackCalls calls) = some data ∧
      xrefCalls new data = some calls' ∧ calls'.Nodup ∧ ∀ call, call ∈ calls' ↔ call ∈ calls := by
  have hmem : ∀ kind name number, (unpackTable calls).Has kind name number ↔
      (kind, name, number) ∈ calls :=
    fun kind name number => (unpackCalls_spec calls).2 kind (name, number)
  constructor
  · rintro ⟨data, calls', hdata, hcalls, hnodup, h⟩
    exact ⟨data, calls', hdata, hcalls, hnodup,
      fun ⟨kind, name, number⟩ => (h kind name number).trans (hmem kind name number)⟩
  · rintro ⟨data, calls', hdata, hcalls, hnodup, h⟩
    exact ⟨data, calls', hdata, hcalls, hnodup,
      fun kind name number => (h (kind, name, number)).trans (hmem kind name number).symm⟩

theorem repackKept_iff (tables : CommonNames Name) (compactNameCount : ℕ)
    (data : List (Packed Name)) :
    RepackKept tables compactNameCount data ↔ Repackable tables compactNameCount data := by
  constructor
  · rintro ⟨new, packed, hrepack, hkept⟩
    obtain ⟨unpacked, hunpacked, hrepack⟩ := bind_eq_some_iff.1 hrepack
    by_cases hempty : [] ∈ unpacked
    · rw [if_pos hempty] at hrepack
      cases hrepack
    rw [if_neg hempty] at hrepack
    obtain ⟨packed', hpacked, hrepack⟩ := bind_eq_some_iff.1 hrepack
    obtain ⟨rfl, rfl⟩ := Prod.mk.inj (some_inj.1 hrepack)
    refine ⟨unpacked, hunpacked, hempty, fun calls hcalls => ?_⟩
    obtain ⟨old, data', hold, hdata', calls₁, calls', hcalls₁, hcalls', hnodup, hmem⟩ :=
      forall₂_trans_mem (mapM_eq_some_iff.1 hunpacked)
        (mapM_eq_some_iff.1 hpacked) hkept calls hcalls
    obtain rfl : calls = calls₁ := some_inj.1 (hold.symm.trans hcalls₁)
    exact (round_trip_iff _ _).1 ((roundTrip_unpackTable _ calls).2 ⟨data', calls', hdata',
      hcalls', hnodup, hmem⟩)
  · rintro ⟨unpacked, hunpacked, hempty, hall⟩
    obtain ⟨packed, hpacked⟩ := forall₂_of_exists fun calls hcalls =>
      (roundTrip_unpackTable _ calls).1 ((round_trip_iff _ _).2 (hall calls hcalls))
    refine ⟨CommonNames.ofNames (newNames compactNameCount (unpacked.foldl countNames [])),
      packed, ?_, ?_⟩
    · have hmap := mapM_eq_some_iff.2 (hpacked.imp fun calls data h => h.choose_spec.1)
      unfold repackXref
      rw [hunpacked, bind_eq_bind, bind_some, if_neg hempty]
      dsimp only
      rw [hmap]
      rfl
    · refine forall₂_comp (mapM_eq_some_iff.1 hunpacked) hpacked fun old calls data' hold h => ?_
      obtain ⟨calls', -, hcalls', hnodup, hmem⟩ := h
      exact ⟨calls, calls', hold, hcalls', hnodup, hmem⟩

/-- The tables that are read back as they were, and the data that keeps its meaning. -/
theorem xref_round_trip (tables : CommonNames Name) :
    (∀ table, RoundTrip tables table ↔ NumbersKept table ∧ Fits tables table) ∧
      ∀ compactNameCount data, RepackKept tables compactNameCount data ↔
        Repackable tables compactNameCount data :=
  ⟨round_trip_iff tables, repackKept_iff tables⟩

/-- Of the numbers 3 and 5 of a name, the second one is read as 2. -/
theorem xref_numbers_lost :
    mapPackedXrefData (CommonNames.ofNames []) ⟨[0, 2, 1, 2, 3, 2], [7]⟩ = some [(.calls, 7, 3),
      (.calls, 7, 2)] ∧
      packXrefData (CommonNames.ofNames [])
        [(.calls, [(7, 3), (7, 5)])] = some (some ⟨[0, 2, 1, 2, 3, 2], [7]⟩) ∧
      ¬ ∀ table : XrefTable ℕ, RoundTrip (CommonNames.ofNames []) table := by
  refine ⟨by decide, ?_, fun h => ?_⟩
  · have hsmall : ∀ n < 8, writeVarInteger n = some [Fin.ofNat 256 n] := by
      intro n hn
      obtain ⟨octet, hoctet, heq⟩ := VarInteger.writeLoop_eq n
      rw [VarInteger.writeVarInteger, if_pos (by omega), heq, if_pos (by omega)]
      rw [if_pos (by omega)] at hoctet
      refine congrArg (fun octet => some [octet]) (Fin.ext ?_)
      rw [hoctet, Fin.val_ofNat]
      omega
    have hsort : [5, 3].mergeSort (fun m n => decide (m ≤ n)) = [3, 5] := by
      simp [List.mergeSort]
    have hcollect :
      collectEntries (CommonNames.ofNames []) [(.calls, [(7, 3), (7, 5)])] (⟨[], 0, 0⟩, []) =
        (⟨[7], 0, 2⟩, [(1, [(0, [5, 3])])]) := rfl
    have hpacked : packXrefData (CommonNames.ofNames []) [(.calls, [(7, 3), (7, 5)])] =
        (writeVarIntegers [0, 2, 1, 2, 3, 2]).map fun octets => some ⟨octets, [7]⟩ := by
      unfold packXrefData
      rw [if_neg (by decide), hcollect]
      dsimp only
      rw [flatMap_singleton, kindIntegers, flatMap_singleton, entryIntegers, hsort]
      rfl
    rw [hpacked]
    simp only [writeVarIntegers, hsmall _ (by decide : 0 < 8), hsmall _ (by decide : 1 < 8),
      hsmall _ (by decide : 2 < 8), hsmall _ (by decide : 3 < 8)]
    rfl
  · have hkept := ((round_trip_iff _ _).1 (h ⟨[(.calls, [(7, 3), (7, 5)])], by decide⟩)).1
    exact absurd (hkept .calls 7 3 5 ⟨_, mem_singleton.2 rfl, by decide⟩ ⟨_,
      mem_singleton.2 rfl, by decide⟩ (by decide) (by decide)) (by decide)

end

end Sbcl.Xref
