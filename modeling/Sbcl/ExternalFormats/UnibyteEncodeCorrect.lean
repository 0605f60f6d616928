import Sbcl.ExternalFormats.UnibyteEncode
import Mathlib.Data.List.Sort

/-!
# The mappers of unibyte formats are inverse

* `codeOf_of_lt`, `subseq_pairs` : below the lowest excepted byte each byte is its own code, and the
  list is cut there;
* `sortedLookupTable_even`, `searchLoop_spec` : the table, and the last code in it that is not above
  a code;
* `UnibyteMapper.Inverse`, `inverse_iff` : the function from codes to bytes is the inverse when its
  table has an entry;
* `stringToLatin_eq` : the octets of each character and the padding, on either path.
-/

namespace Sbcl.Unibyte

open List Option

variable {byte code count pos : ℕ}

/-! ## The tables -/

section Tables

variable {exceptions : List Exception} {lowest : ℕ}

theorem le_of_pairwise {list : List (ℕ × ℕ)} (h : list.Pairwise fun a b => a.1 ≤ b.1) {i j : ℕ}
    (hi : i < list.length) (hj : j < list.length) (hij : i ≤ j) : list[i].1 ≤ list[j].1 := by
  rcases Nat.eq_or_lt_of_le hij with rfl | hlt
  · exact le_rfl
  · exact pairwise_iff_getElem.1 h i j hi hj hlt

theorem lowest_le (h : lowestNonEquivalentCode exceptions = some lowest) :
    ∀ entry ∈ exceptions, lowest ≤ entry.byte.val := by
  intro entry hentry
  have hsorted := pairwise_mergeSort' (fun a b : Exception => a.byte.val ≤ b.byte.val) exceptions
  have hmem :=
    (mergeSort_perm exceptions fun a b : Exception =>
      decide (a.byte.val ≤ b.byte.val)).mem_iff.2 hentry
  unfold lowestNonEquivalentCode at h
  rcases hlist : exceptions.mergeSort (fun a b : Exception => decide (a.byte.val ≤ b.byte.val))
    with _ | ⟨first, rest⟩
  · rw [hlist] at h
    exact absurd h (by simp)
  rw [hlist] at h hmem hsorted
  obtain rfl := Option.some.inj h
  rcases mem_cons.1 hmem with rfl | hrest
  · exact le_rfl
  · exact rel_of_pairwise_cons hsorted hrest

theorem codeOf_of_lt (h : lowestNonEquivalentCode exceptions = some lowest)
    (hbyte : byte < lowest) : codeOf exceptions byte = some byte := by
  have hnone : exceptions.find? (fun entry => entry.byte.val = byte) = none := by
    rw [find?_eq_none]
    intro entry hentry heq
    have hle := lowest_le h entry hentry
    rw [of_decide_eq_true heq] at hle
    omega
  rw [codeOf, exceptionOf, hnone]
  rfl

theorem lowest_lt (h : lowestNonEquivalentCode exceptions = some lowest) : lowest < 256 := by
  obtain ⟨entry, -, rfl⟩ := map_eq_some_iff.1 h
  exact entry.byte.isLt

/-- The pairs from the lowest excepted byte on. -/
def upperPairs (exceptions : List Exception) (lowest : ℕ) : List (ℕ × ℕ) :=
  (List.range' lowest (256 - lowest)).filterMap fun byte => (codeOf exceptions byte).map
    fun code => (code, byte)

theorem mem_upperPairs : (code, byte) ∈ upperPairs exceptions lowest ↔
    lowest ≤ byte ∧ byte < lowest + (256 - lowest) ∧ codeOf exceptions byte = some code := by
  simp only [upperPairs, mem_filterMap, mem_range'_1, map_eq_some_iff, Prod.mk.injEq]
  constructor
  · rintro ⟨b, ⟨hle, hlt⟩, c, hcode, rfl, rfl⟩
    exact ⟨hle, hlt, hcode⟩
  · rintro ⟨hle, hlt, hcode⟩
    exact ⟨byte, ⟨hle, hlt⟩, code, hcode, rfl, rfl⟩

theorem subseq_pairs (h : lowestNonEquivalentCode exceptions = some lowest) :
    subseq (pairs exceptions) lowest = some (upperPairs exceptions lowest) := by
  have hlt := lowest_lt h
  have hsplit : pairs exceptions = (List.range lowest).map (fun byte => (byte, byte)) ++
      upperPairs exceptions lowest := by
    have hrange : List.range 256 = List.range lowest ++ List.range' lowest (256 - lowest) := by
      have happend : List.range' 0 lowest ++ List.range' (0 + lowest) (256 - lowest) =
          List.range' 0 (lowest + (256 - lowest)) := range'_append_1
      rw [Nat.zero_add, Nat.add_sub_of_le hlt.le] at happend
      rw [range_eq_range', range_eq_range', happend]
    rw [pairs, hrange, filterMap_append, upperPairs]
    congr 1
    rw [← filterMap_eq_map]
    refine filterMap_congr fun byte hbyte => ?_
    rw [codeOf_of_lt h (mem_range.1 hbyte)]
    rfl
  have hlength : ((List.range lowest).map fun byte => (byte, byte)).length = lowest := by
    rw [length_map, length_range]
  rw [subseq, hsplit, if_pos, drop_left' hlength]
  rw [length_append, hlength]
  exact Nat.le_add_right _ _

theorem sortedLookupTable_even (sortedPairs : List (ℕ × ℕ)) (i : ℕ) :
    (sortedLookupTable sortedPairs)[2 * i]? = (sortedPairs[i]?).map Prod.fst ∧
      (sortedLookupTable sortedPairs)[2 * i + 1]? = (sortedPairs[i]?).map Prod.snd := by
  induction sortedPairs generalizing i with
  | nil => exact ⟨rfl, rfl⟩
  | cons pair rest ih =>
    cases i with
    | zero => exact ⟨rfl, rfl⟩
    | succ i => exact ih i

theorem searchLoop_spec (sortedPairs : List (ℕ × ℕ)) (code : ℕ) {low high : ℕ} (hlow : low % 2 = 0)
    (hhigh : high % 2 = 0) (hle : low ≤ high) (hlast : high / 2 < sortedPairs.length)
    (hbelow : low = 0 ∨ ∀ pair, sortedPairs[low / 2]? = some pair → pair.1 ≤ code)
    (habove : ∀ pair, sortedPairs[high / 2 + 1]? = some pair → code < pair.1) :
    ∃ i < sortedPairs.length,
      searchLoop (sortedLookupTable sortedPairs) code low high hlow hhigh = 2 * i ∧
      (i = 0 ∨ ∀ pair, sortedPairs[i]? = some pair → pair.1 ≤ code) ∧
      ∀ pair, sortedPairs[i + 1]? = some pair → code < pair.1 := by
  fun_induction searchLoop (sortedLookupTable sortedPairs) code low high hlow hhigh with
  | case1 low high hlow hhigh hlt mid hmid hless ih =>
    have hdef : mid = logandc2One ((low + high + 2) / 2) := rfl
    unfold logandc2One at hdef
    refine ih (by omega) (by omega) hbelow fun pair hpair => ?_
    rw [show (mid - 2) / 2 + 1 = mid / 2 by omega] at hpair
    have heven := (sortedLookupTable_even sortedPairs (mid / 2)).1
    rw [hpair, show 2 * (mid / 2) = mid by omega] at heven
    rw [getD_eq_getElem?_getD, heven] at hless
    exact hless
  | case2 low high hlow hhigh hlt mid hmid hnot ih =>
    have hdef : mid = logandc2One ((low + high + 2) / 2) := rfl
    unfold logandc2One at hdef
    refine ih (by omega) hlast (.inr fun pair hpair => ?_) habove
    have heven := (sortedLookupTable_even sortedPairs (mid / 2)).1
    rw [hpair, show 2 * (mid / 2) = mid by omega] at heven
    rw [getD_eq_getElem?_getD, heven] at hnot
    exact not_lt.1 hnot
  | case3 low high hlow hhigh hnot =>
    obtain rfl : low = high := by omega
    refine ⟨low / 2, hlast, by omega, ?_, habove⟩
    rcases hbelow with rfl | hbelow
    · exact .inl rfl
    · exact .inr hbelow

end Tables

/-! ## The mapper -/

namespace UnibyteMapper

/-- The function from codes to bytes is the inverse of that from bytes to codes. -/
def Inverse (mapper : UnibyteMapper) : Prop :=
  ∀ code, ∃ byte : Option (Fin 256), mapper.codeByte code = some (byte.map Fin.val) ∧
    ∀ b, byte = some b ↔ mapper.byteChar b = some code

end UnibyteMapper

/-- No two bytes have one code. -/
def Distinct (exceptions : List Exception) : Prop :=
  ∀ byte < 256, ∀ other < 256, ∀ code, codeOf exceptions byte = some code →
    codeOf exceptions other = some code → byte = other

section Mapper

variable {exceptions : List Exception} {lowest : ℕ} {mapper : UnibyteMapper}

theorem defineUnibyteMapper_eq (h : defineUnibyteMapper exceptions = some mapper) :
    lowestNonEquivalentCode exceptions = some mapper.lowest ∧
    mapper.byteToCode = byteToCodeTable exceptions ∧
      mapper.codeToByteTable =
        sortedLookupTable ((upperPairs exceptions mapper.lowest).mergeSort fun a b =>
          a.1 ≤ b.1) := by
  unfold defineUnibyteMapper at h
  rcases hlowest : lowestNonEquivalentCode exceptions with _ | lowest
  · rw [hlowest] at h
    exact absurd h (by simp)
  · rw [hlowest, bind_eq_bind, bind_some, subseq_pairs hlowest, bind_eq_bind, bind_some] at h
    obtain rfl := Option.some.inj h
    exact ⟨rfl, rfl, rfl⟩

/-- The macro expands unless there are no exceptions. -/
theorem exists_mapper (hne : exceptions ≠ []) : ∃ mapper, defineUnibyteMapper exceptions =
    some mapper := by
  have hlowest : ∃ lowest, lowestNonEquivalentCode exceptions = some lowest := by
    have hlength := (mergeSort_perm exceptions fun a b => a.byte.val ≤ b.byte.val).length_eq
    unfold lowestNonEquivalentCode
    rcases hlist :
      exceptions.mergeSort (fun a b => decide (a.byte.val ≤ b.byte.val)) with _ | ⟨first, rest⟩
    · rw [hlist] at hlength
      exact absurd (length_eq_zero_iff.1 hlength.symm) hne
    · exact ⟨_, rfl⟩
  obtain ⟨lowest, hlowest⟩ := hlowest
  unfold defineUnibyteMapper
  rw [hlowest, bind_eq_bind, bind_some, subseq_pairs hlowest, bind_eq_bind, bind_some]
  exact ⟨_, rfl⟩

theorem byteChar_eq (h : defineUnibyteMapper exceptions = some mapper) (byte : Fin 256) :
    mapper.byteChar byte = codeOf exceptions byte := by
  have hget : (byteToCodeTable exceptions).getD byte.val 0 =
      ((codeOf exceptions byte).map Nat.cast).getD (-1) := by
    rw [byteToCodeTable, getD_eq_getElem _ _ (by simp [byte.isLt]), getElem_map, getElem_range]
  rw [UnibyteMapper.byteChar, (defineUnibyteMapper_eq h).2.1, hget]
  cases codeOf exceptions byte with
  | none => rfl
  | some code => exact if_pos (Int.natCast_nonneg code)

theorem codeByte_eq {sortedPairs : List (ℕ × ℕ)}
    (htable : mapper.codeToByteTable = sortedLookupTable sortedPairs)
    (hne : sortedPairs ≠ []) (hcode : mapper.lowest ≤ code) :
    ∃ i, ∃ hi : i < sortedPairs.length,
      mapper.codeByte code =
        some (if code = sortedPairs[i].1 then some sortedPairs[i].2 else none) ∧
        (i = 0 ∨ sortedPairs[i].1 ≤ code) ∧ ∀ pair, sortedPairs[i + 1]? = some pair →
          code < pair.1 := by
  obtain ⟨byteToCode, lowest, table, heven⟩ := mapper
  obtain rfl : table = _ := htable
  have hlength := length_sortedLookupTable sortedPairs
  have hpos : 0 < sortedPairs.length := length_pos_iff.2 hne
  obtain ⟨i, hi, hsearch, hbelow, habove⟩ := searchLoop_spec sortedPairs code rfl
    (show ((sortedLookupTable sortedPairs).length - 2) % 2 = 0 by omega) (Nat.zero_le _)
    (by omega) (.inl rfl) (fun pair hpair => by
      rw [show ((sortedLookupTable sortedPairs).length - 2) / 2 + 1 = sortedPairs.length by omega,
        getElem?_length] at hpair
      exact absurd hpair (by simp))
  obtain ⟨hcodeAt, hbyteAt⟩ := sortedLookupTable_even sortedPairs i
  rw [getElem?_eq_getElem hi] at hcodeAt hbyteAt hbelow
  refine ⟨i, hi, ?_, hbelow.imp_right fun hle => hle _ rfl, habove⟩
  unfold UnibyteMapper.codeByte
  rw [if_neg (not_lt.2 hcode)]
  dsimp only
  rw [hsearch, hcodeAt, hbyteAt]
  simp only [map_some, bind_eq_bind, bind_some]
  by_cases heq : code = sortedPairs[i].1
  · rw [if_pos heq, if_pos heq]
    rfl
  · rw [if_neg heq, if_neg heq]
    rfl

theorem codeByte_nil (htable : mapper.codeToByteTable = []) (hcode : mapper.lowest ≤ code) :
    mapper.codeByte code = none := by
  obtain ⟨byteToCode, lowest, table, heven⟩ := mapper
  obtain rfl : table = [] := htable
  unfold UnibyteMapper.codeByte
  rw [if_neg (not_lt.2 hcode)]
  rfl

/-- From the lowest excepted byte on, the byte of a code is found in the table when it has an entry,
and otherwise the read is outside of the table. -/
theorem codeByte_upper (h : defineUnibyteMapper exceptions = some mapper)
    (hcode : mapper.lowest ≤ code) :
    if upperPairs exceptions mapper.lowest = [] then mapper.codeByte code = none
    else (∃ byte, (code, byte) ∈ upperPairs exceptions mapper.lowest ∧
      mapper.codeByte code = some (some byte)) ∨
      (∀ byte, (code, byte) ∉ upperPairs exceptions mapper.lowest) ∧
        mapper.codeByte code = some none := by
  have htable := (defineUnibyteMapper_eq h).2.2
  split
  · rename_i hnil
    rw [hnil, mergeSort_nil] at htable
    exact codeByte_nil htable hcode
  rename_i hne
  have hsorted :=
    pairwise_mergeSort' (fun a b : ℕ × ℕ => a.1 ≤ b.1) (upperPairs exceptions mapper.lowest)
  have hperm := mergeSort_perm (upperPairs exceptions mapper.lowest) fun a b => a.1 ≤ b.1
  obtain ⟨i, hi, hresult, hbelow, habove⟩ := codeByte_eq htable
    (fun hnil => hne (by
      rw [hnil] at hperm
      exact hperm.symm.eq_nil)) hcode
  rw [hresult]
  by_cases hfound :
    code = (((upperPairs exceptions mapper.lowest).mergeSort fun a b => a.1 ≤ b.1)[i]).1
  · rw [if_pos hfound]
    refine .inl ⟨_, ?_, rfl⟩
    rw [hfound]
    exact hperm.mem_iff.1 (getElem_mem hi)
  rw [if_neg hfound]
  refine .inr ⟨fun byte hmem => ?_, rfl⟩
  -- an entry with the code is not behind the one found, and not before it
  obtain ⟨j, hj, hentry⟩ := getElem_of_mem (hperm.mem_iff.2 hmem)
  rcases Nat.lt_or_ge i j with hlt | hge
  · have hnext := Nat.lt_of_le_of_lt hlt hj
    have hle := le_of_pairwise hsorted hnext hj hlt
    rw [hentry] at hle
    exact absurd (habove _ (getElem?_eq_getElem hnext)) (not_lt.2 hle)
  have hle := le_of_pairwise hsorted hj hi hge
  rw [hentry] at hle
  rcases hbelow with rfl | hbelow
  · obtain rfl : j = 0 := Nat.le_zero.1 hge
    exact hfound (by rw [hentry])
  · exact hfound (le_antisymm hle hbelow)

/-- The function from codes to bytes is the inverse if and only if its table has an entry. -/
theorem inverse_iff (hdistinct : Distinct exceptions)
    (h : defineUnibyteMapper exceptions = some mapper) :
    mapper.Inverse ↔ ∃ byte : Fin 256, mapper.lowest ≤ byte.val ∧
      codeOf exceptions byte ≠ none := by
  have hlowest := (defineUnibyteMapper_eq h).1
  have hlt := lowest_lt hlowest
  have hupper : upperPairs exceptions mapper.lowest ≠ [] ↔
      ∃ byte : Fin 256, mapper.lowest ≤ byte.val ∧ codeOf exceptions byte ≠ none := by
    constructor
    · intro hne
      obtain ⟨⟨code, byte⟩, hmem⟩ := exists_mem_of_ne_nil _ hne
      obtain ⟨hle, hbyteLt, hcode⟩ := mem_upperPairs.1 hmem
      exact ⟨⟨byte, by omega⟩, hle, fun hnone => absurd (hcode.symm.trans hnone) (by simp)⟩
    · rintro ⟨byte, hle, hcode⟩
      obtain ⟨code, hcode⟩ := ne_none_iff_exists'.1 hcode
      exact ne_nil_of_mem (mem_upperPairs.2 ⟨hle, by have := byte.isLt; omega, hcode⟩)
  rw [← hupper]
  constructor
  · intro hinverse hnil
    have hnone := codeByte_upper h (le_refl mapper.lowest)
    rw [if_pos hnil] at hnone
    obtain ⟨byte, hbyte, -⟩ := hinverse mapper.lowest
    exact absurd (hnone.symm.trans hbyte) (by simp)
  · intro hne code
    rcases Nat.lt_or_ge code mapper.lowest with hbelow | hge
    · have hcode := codeOf_of_lt hlowest hbelow
      refine ⟨some ⟨code, hbelow.trans hlt⟩, if_pos hbelow, fun b => ?_⟩
      rw [byteChar_eq h]
      constructor
      · rintro ⟨⟩
        exact hcode
      · intro hb
        exact congrArg some (Fin.ext (hdistinct code (hbelow.trans hlt) b b.isLt code hcode hb))
    · have hbytes : ∀ b : Fin 256, mapper.byteChar b = some code ↔
          (code, b.val) ∈ upperPairs exceptions mapper.lowest := by
        intro b
        rw [byteChar_eq h, mem_upperPairs]
        refine ⟨fun hb => ⟨?_, by omega, hb⟩, fun hb => hb.2.2⟩
        by_contra hlow
        rw [codeOf_of_lt hlowest (not_le.1 hlow)] at hb
        have := Option.some.inj hb
        omega
      have hsearch := codeByte_upper h hge
      rw [if_neg hne] at hsearch
      rcases hsearch with ⟨byte, hmem, hbyte⟩ | ⟨hnone, hbyte⟩
      · obtain ⟨-, hbyteLt, hcode⟩ := mem_upperPairs.1 hmem
        have hbyteLt : byte < 256 := by omega
        refine ⟨some ⟨byte, hbyteLt⟩, hbyte, fun b => ?_⟩
        rw [byteChar_eq h]
        constructor
        · rintro ⟨⟩
          exact hcode
        · intro hb
          exact congrArg some (Fin.ext (hdistinct byte hbyteLt b b.isLt code hcode hb))
      · refine ⟨none, hbyte, fun b => ?_⟩
        rw [hbytes]
        exact iff_of_false (by simp) (hnone b)

end Mapper

/-! ## Strings -/

section Strings

/-- The octets for one character. -/
def LatinBytes.octets : LatinBytes → List (Fin 256)
  | octet byte => [byte]
  | replacement octets => octets

variable {getBytes : ℕ → LatinBytes} {send : ℕ}

theorem extend_eq (newOctets : List (Fin 256)) (bytes : LatinBytes) :
    extend newOctets bytes = newOctets ++ bytes.octets := by
  cases bytes <;> rfl

theorem errorLoop_eq (hcount : send - pos = count) (newOctets : List (Fin 256)) :
    errorLoop getBytes send newOctets pos =
      newOctets ++ (List.range' pos count).flatMap fun i => (getBytes i).octets := by
  induction count generalizing pos newOctets with
  | zero =>
    rw [errorLoop, if_pos (by omega), range'_zero, flatMap_nil, append_nil]
  | succ count ih =>
    rw [errorLoop, if_neg (by omega), ih (by omega), extend_eq, range'_succ,
      flatMap_cons, append_assoc]

theorem afterFirstLoop_eq (hcount : send - pos = count) (stored : List (Fin 256))
    (nullPadding : Bool) : afterFirstLoop getBytes send nullPadding
        (noErrorLoop getBytes send (stored ++ List.replicate (count + nullPadding.toNat) 0) pos
          stored.length) =
      stored ++ ((List.range' pos count).flatMap fun i => (getBytes i).octets) ++
        List.replicate nullPadding.toNat 0 := by
  induction count generalizing pos stored with
  | zero =>
    rw [noErrorLoop, if_pos (by omega), range'_zero, flatMap_nil, append_nil, Nat.zero_add]
    rfl
  | succ count ih =>
    rw [noErrorLoop, if_neg (by omega), range'_succ, flatMap_cons]
    rcases hbytes : getBytes pos with byte | replacement
    · have hset :
        (stored ++ List.replicate (count + 1 + nullPadding.toNat) 0).set stored.length byte =
          (stored ++ [byte]) ++ List.replicate (count + nullPadding.toNat) 0 := by
        rw [show count + 1 + nullPadding.toNat = count + nullPadding.toNat + 1 by omega,
          replicate_succ]
        simp
      have hih := ih (show send - (pos + 1) = count by omega) (stored ++ [byte])
      rw [length_append, length_singleton] at hih
      dsimp only
      rw [hset, hih]
      simp only [LatinBytes.octets, append_assoc]
    · dsimp only
      rw [afterFirstLoop, errorLoop_eq (show send - (pos + 1) = count by omega),
        extend_eq, take_left]
      cases nullPadding <;> simp [LatinBytes.octets]

theorem stringToLatin_eq (getBytes : ℕ → LatinBytes) (sstart send : ℕ) (nullPadding : Bool) :
    stringToLatin getBytes sstart send nullPadding =
      ((List.range' sstart (send - sstart)).flatMap fun i => (getBytes i).octets) ++
        List.replicate nullPadding.toNat 0 :=
  afterFirstLoop_eq rfl [] nullPadding

end Strings

/-- The function from codes to bytes is the inverse of that from bytes to codes, and an encoding is
the octets of its characters and the padding, if and only if a byte from the lowest excepted one on
has a translation. -/
theorem unibyte_encoding_iff {exceptions : List Exception} (hdistinct : Distinct exceptions)
    {mapper : UnibyteMapper} (h : defineUnibyteMapper exceptions = some mapper) :
    (mapper.Inverse ∧
        ∀ (codeToByte : ℕ → Option ℕ) (encodingError : ℕ →
          List (Fin 256)) (string : List ℕ) (sstart send : ℕ) (nullPadding : Bool),
          stringToLatin (getLatinBytes codeToByte encodingError string) sstart send nullPadding =
            ((List.range' sstart (send - sstart)).flatMap fun i =>
              (getLatinBytes codeToByte encodingError string i).octets) ++
              List.replicate nullPadding.toNat 0) ↔
      ∃ byte : Fin 256, mapper.lowest ≤ byte.val ∧ codeOf exceptions byte ≠ none := by
  rw [← inverse_iff hdistinct h]
  exact and_iff_left fun codeToByte encodingError string sstart send nullPadding =>
    stringToLatin_eq _ _ _ _

theorem codeOf_single (byte : Fin 256) (code : Option ℕ) (b : ℕ) :
    codeOf [⟨byte, [code]⟩] b = if byte.val = b then code else some b := by
  unfold codeOf exceptionOf
  by_cases heq : byte.val = b <;> simp [heq]

/-- Four bytes of code page 1252; there is no character for 129. -/
def codePage : List Exception :=
  [⟨128, [some 8364]⟩, ⟨129, [none]⟩, ⟨130, [some 8218]⟩, ⟨131, [some 402]⟩]

theorem codeOf_codePage (b : ℕ) : codeOf codePage b =
    if b = 128 then some 8364 else if b = 129 then none else if b = 130 then some 8218
      else if b = 131 then some 402 else some b := by
  unfold codeOf exceptionOf codePage
  split_ifs with h1 h2 h3 h4
  · simp [h1]
  · simp [h2]
  · simp [h3]
  · simp [h4]
  · simp [Ne.symm h1, Ne.symm h2, Ne.symm h3, Ne.symm h4]

theorem unibyte_encoding_codePage : ∃ mapper, defineUnibyteMapper codePage = some mapper ∧
    ((mapper.Inverse ∧
        ∀ (codeToByte : ℕ → Option ℕ) (encodingError : ℕ →
          List (Fin 256)) (string : List ℕ) (sstart send : ℕ) (nullPadding : Bool),
          stringToLatin (getLatinBytes codeToByte encodingError string) sstart send nullPadding =
            ((List.range' sstart (send - sstart)).flatMap fun i =>
              (getLatinBytes codeToByte encodingError string i).octets) ++
              List.replicate nullPadding.toNat 0) ↔
      ∃ byte : Fin 256, mapper.lowest ≤ byte.val ∧ codeOf codePage byte ≠ none) := by
  obtain ⟨mapper, hmapper⟩ := exists_mapper (cons_ne_nil (⟨128, [some 8364]⟩ : Exception) _)
  refine ⟨mapper, hmapper, unibyte_encoding_iff ?_ hmapper⟩
  intro byte hbyte other hother code hcode hcode'
  rw [codeOf_codePage] at hcode hcode'
  split_ifs at hcode hcode' <;> simp only [Option.some.injEq] at hcode hcode' <;> omega

/-- The byte 255 without a translation: no two bytes have one code, and the search for the code 255
reads outside of the table. -/
theorem codeByte_untranslatable : Distinct [⟨255, [none]⟩] ∧
    ∃ mapper, defineUnibyteMapper [⟨255, [none]⟩] = some mapper ∧ mapper.codeByte 255 = none := by
  obtain ⟨mapper, hmapper⟩ := exists_mapper (cons_ne_nil (⟨255, [none]⟩ : Exception) [])
  constructor
  · intro byte hbyte other hother code hcode hcode'
    rw [codeOf_single] at hcode hcode'
    split_ifs at hcode hcode'
    exact (Option.some.inj hcode).trans (Option.some.inj hcode').symm
  refine ⟨mapper, hmapper, ?_⟩
  have hlowest : mapper.lowest = 255 := by
    have := (defineUnibyteMapper_eq hmapper).1
    unfold lowestNonEquivalentCode at this
    rw [mergeSort_singleton] at this
    exact (Option.some.inj this).symm
  have hupper := codeByte_upper hmapper (show mapper.lowest ≤ 255 by rw [hlowest])
  rw [if_pos] at hupper
  · exact hupper
  rw [eq_nil_iff_forall_not_mem]
  rintro ⟨code, byte⟩ hmem
  obtain ⟨hle, hlt, hcode⟩ := mem_upperPairs.1 hmem
  rw [hlowest] at hle hlt
  obtain rfl : byte = 255 := by omega
  rw [codeOf_single] at hcode
  exact absurd hcode (by simp)

end Sbcl.Unibyte
