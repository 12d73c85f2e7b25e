import XnMiner.Mining.Argon2Encode
import XnMiner.Lists.Search

/-! # Prepared hits

What the PHC string of a prepared hit says is read back from it: the cost, the digest and,
when the hit is prepared again, the class. The class is searched in the whole string, so the
salt takes part in it.
-/
namespace XnMiner
open TextCodec ListSearch

inductive BlockClass where
  | xuni
  | xblk
  | xnm
  | other
  deriving DecidableEq

def BlockClass.text (c : BlockClass) : Str :=
  match c with
  | .xuni => "XUNI".toList
  | .xblk => "XBLK".toList
  | .xnm => "XNM".toList
  | .other => "OTHER".toList

def typeKind (blockType : Str) : Str := trim ((upper blockType).filter fun c => c ≠ Char.ofNat 0)

def kindClass (kind : Str) : BlockClass :=
  if kind = "XUNI".toList then .xuni
  else if kind = "XBLK".toList then .xblk
  else if kind = "XEN11".toList ∨ kind = "NORMAL".toList ∨ kind = "XNM".toList then .xnm
  else .other

def namedClass (blockType : Str) : BlockClass := kindClass (typeKind blockType)

/-- The priorities of the classifier. -/
def classOf (named : BlockClass) (xuni xen11 super : Bool) : BlockClass :=
  if named = .xuni ∨ xuni = true then .xuni
  else if named = .xblk ∨ (xen11 = true ∧ super = true) then .xblk
  else if xen11 = true ∨ named = .xnm then .xnm
  else .other

theorem classOf_text (kind : Str) (xuni xen11 super : Bool) :
    (classOf (kindClass kind) xuni xen11 super).text =
      if kind = "XUNI".toList ∨ xuni = true then "XUNI".toList
      else if kind = "XBLK".toList ∨ (xen11 = true ∧ super = true) then "XBLK".toList
      else if xen11 = true ∨ kind = "XEN11".toList ∨ kind = "NORMAL".toList ∨
          kind = "XNM".toList then "XNM".toList
      else "OTHER".toList := by
  by_cases hnamed : kind ∈ ["XUNI".toList, "XBLK".toList, "XEN11".toList, "NORMAL".toList,
      "XNM".toList]
  · simp only [List.mem_cons, List.not_mem_nil, or_false] at hnamed
    rcases hnamed with rfl | rfl | rfl | rfl | rfl <;>
      cases xuni <;> cases xen11 <;> cases super <;> rfl
  · simp only [List.mem_cons, List.not_mem_nil, or_false, not_or] at hnamed
    obtain ⟨hxuni, hxblk, hxen11, hnormal, hxnm⟩ := hnamed
    simp only [kindClass, hxuni, hxblk, hxen11, hnormal, hxnm, if_false, or_false, false_or]
    cases xuni <;> cases xen11 <;> cases super <;> rfl

theorem classifyBlock_eq (hashStr blockType : Str) : classifyBlock hashStr blockType =
    (classOf (namedClass blockType) (containsXuni hashStr) (contains hashStr "XEN11".toList)
      (isSuperblock hashStr)).text := (classOf_text _ _ _ _).symm

theorem BlockClass.text_inj {c d : BlockClass} (h : c.text = d.text) : c = d := by
  cases c <;> cases d <;> first | rfl | exact absurd h (by decide)

theorem namedClass_text (c : BlockClass) : namedClass c.text = c := by
  cases c <;> decide

/-- Classifying by a class that was found does not change it. -/
theorem classOf_again : ∀ (named : BlockClass) (xuni xen11 super : Bool),
    classOf (classOf named xuni xen11 super) xuni xen11 super = classOf named xuni xen11 super := by
  intro named xuni xen11 super
  cases named <;> cases xuni <;> cases xen11 <;> cases super <;> rfl

theorem classifyBlock_again (hashStr blockType : Str) :
    classifyBlock hashStr (classifyBlock hashStr blockType) = classifyBlock hashStr blockType := by
  simp only [classifyBlock_eq, namedClass_text, classOf_again]

def phcHead (memoryCost timeCost parallelism : ℕ) : Str :=
  "$argon2id$v=19$m=".toList ++ natText memoryCost ++ ",t=".toList ++ natText timeCost ++
    ",p=".toList ++ natText parallelism

theorem encodeArgon2idPhc_parts (saltHex : Str) (m t p : ℕ) (digest : Str) :
    encodeArgon2idPhc saltHex m t p digest =
      phcHead m t p ++ '$' :: (base64Encode (hexToBytes saltHex) ++ '$' :: digest) := by
  have hdollar : "$".toList = ['$'] := by decide
  unfold encodeArgon2idPhc phcHead
  rw [hdollar]
  simp only [List.append_assoc, List.cons_append, List.nil_append]

theorem afterLastDollar_append (xs : Str) {digest : Str} (h : '$' ∉ digest) :
    afterLastDollar (xs ++ '$' :: digest) = digest := by
  have hplain : ∀ c ∈ digest.reverse, decide (c ≠ '$') = true := by
    intro c hc
    rw [decide_eq_true_eq]
    exact fun hdollar => h (hdollar ▸ List.mem_reverse.mp hc)
  have hstop : ∀ c ∈ ('$' :: xs.reverse).head?, decide (c ≠ '$') = false := by
    intro c hc
    obtain rfl : '$' = c := by simpa using hc
    rfl
  unfold afterLastDollar
  rw [List.reverse_append, List.reverse_cons, List.append_assoc, List.singleton_append,
    takeWhile_append_stop hplain hstop, List.reverse_reverse]

theorem hashDigest_encode (saltHex : Str) (m t p : ℕ) {digest : Str} (h : '$' ∉ digest) :
    hashDigestForSuperblock (encodeArgon2idPhc saltHex m t p digest) = digest := by
  have hdollar : (encodeArgon2idPhc saltHex m t p digest).head? = some '$' := by
    rw [encodeArgon2idPhc_eq]
    rfl
  have hparts : encodeArgon2idPhc saltHex m t p digest =
      (phcHead m t p ++ '$' :: base64Encode (hexToBytes saltHex)) ++ '$' :: digest := by
    rw [encodeArgon2idPhc_parts]
    simp only [List.append_assoc, List.cons_append]
  rw [hashDigestForSuperblock, if_pos (.inl hdollar), hparts, afterLastDollar_append _ h]

theorem hashDigest_bare {digest : Str} (h : '$' ∉ digest) :
    hashDigestForSuperblock digest = digest := by
  refine if_neg ?_
  rintro (hhead | hcount)
  · exact h (List.mem_of_mem_head? hhead)
  · rw [List.count_eq_zero_of_not_mem h] at hcount
    omega

theorem isSuperblock_encode (saltHex : Str) (m t p : ℕ) {digest : Str} (h : '$' ∉ digest) :
    isSuperblock (encodeArgon2idPhc saltHex m t p digest) = isSuperblock digest := by
  rw [isSuperblock, isSuperblock, hashDigest_encode _ _ _ _ h, hashDigest_bare h]

theorem isArgon2Encoded_bare {digest : Str} (h : '$' ∉ digest) :
    isArgon2Encoded digest = false := by
  rw [Bool.eq_false_iff]
  intro hencoded
  have hmem : '$' ∈ "$argon2".toList := by decide
  exact h ((List.isPrefixOf_iff_prefix.mp hencoded).subset hmem)

/-- A prepared hit is prepared again at its own cost only, and then it is the same. -/
theorem prepareHitForSubmit_encoded (hit : BlockHit) {m : ℤ}
    (hencoded : isArgon2Encoded hit.hashStr = true) (hcost : memoryCostFromHash hit.hashStr = some m)
    (saltHex : Str) (memoryCost t p : ℤ) :
    prepareHitForSubmit hit saltHex memoryCost t p = if m = memoryCost then
      some { hit with blockType := classifyBlock hit.hashStr hit.blockType } else none := by
  unfold prepareHitForSubmit
  rw [if_pos hencoded, hcost]
  dsimp only [Option.any_some]
  split_ifs <;> simp_all

/-- What a bare digest becomes, and what is read back from it. -/
theorem prepared_round_trip (hit : BlockHit) (saltHex : Str) (m t p : ℤ) (hpos : 0 < m)
    (hmax : m < 2 ^ 31) (hdigest : '$' ∉ hit.hashStr) :
    ∃ out, prepareHitForSubmit hit saltHex m t p = some out ∧
      isArgon2Encoded out.hashStr = true ∧
      memoryCostFromHash out.hashStr = some m ∧ out.memoryCost = some m ∧
      hashDigestForSuperblock out.hashStr = hit.hashStr ∧
      (out.key = hit.key ∧ out.attempts = hit.attempts ∧ out.strategy = hit.strategy ∧
        out.hps = hit.hps ∧ out.foundAt = hit.foundAt) ∧
      ∀ (saltHex' : Str) (m' t' p' : ℤ), prepareHitForSubmit out saltHex' m' t' p' =
        if m' = m then some out else none := by
  have huint : (toUint32 m : ℤ) = m := by
    unfold toUint32
    omega
  have hout := prepareHitForSubmit_bare (isArgon2Encoded_bare hdigest) saltHex m t p
  set encoded := encodeArgon2idPhc saltHex (toUint32 m) (toUint32 t) (toUint32 p) hit.hashStr
    with hencode
  set out : BlockHit := { hit with
    hashStr := encoded
    blockType := classifyBlock encoded hit.blockType
    memoryCost := some m }
  have hencoded : isArgon2Encoded out.hashStr = true := isArgon2Encoded_encode ..
  have hcost : memoryCostFromHash out.hashStr = some m := by
    change memoryCostFromHash encoded = some m
    rw [hencode, memoryCostFromHash_encode, if_pos (by omega), huint]
  have hsame : { out with blockType := classifyBlock out.hashStr out.blockType } = out :=
    congrArg (fun bt => { out with blockType := bt }) (classifyBlock_again encoded hit.blockType)
  refine ⟨out, hout, hencoded, hcost, rfl, hashDigest_encode _ _ _ _ hdigest,
    ⟨rfl, rfl, rfl, rfl, rfl⟩, ?_⟩
  intro saltHex' m' t' p'
  rw [prepareHitForSubmit_encoded out hencoded hcost, hsame]
  simp only [eq_comm]

theorem prepared_round_trip_plain :
    (prepareHitForSubmit { hashStr := "XEN11digest".toList } "ab".toList 1100 1 1).isSome := by
  obtain ⟨out, hout, -⟩ := prepared_round_trip { hashStr := "XEN11digest".toList } "ab".toList
    1100 1 1 (by decide) (by decide) (by decide)
  rw [hout]
  rfl

theorem contains_eq_search (s pat : Str) : contains s pat = search pat.isPrefixOf s := by
  induction s with
  | nil => cases pat <;> rfl
  | cons c cs ih => rw [contains, search, ih]

theorem containsXuni_eq_search (s : Str) : containsXuni s = search xuniHere s := by
  induction s with
  | nil => rfl
  | cons c cs ih => rw [containsXuni, search, ih]

theorem xuniHere_iff {s : Str} : xuniHere s = true ↔
    ∃ d rest, s = 'X' :: 'U' :: 'N' :: 'I' :: d :: rest ∧ d.isDigit = true := by
  unfold xuniHere
  split
  · simp
  · next hnone =>
    refine iff_of_false (by simp) ?_
    rintro ⟨d, rest, rfl, -⟩
    exact hnone d rest rfl

theorem xuniHere_stops : StopsAt xuniHere '$' := by
  intro xs ys
  rw [Bool.eq_iff_iff, xuniHere_iff, xuniHere_iff]
  constructor
  · rintro ⟨d, rest, heq, hd⟩
    rcases xs with _ | ⟨a, _ | ⟨b, _ | ⟨c, _ | ⟨i, _ | ⟨e, xs⟩⟩⟩⟩⟩ <;>
      simp only [List.cons_append, List.nil_append, List.cons.injEq] at heq
    · exact absurd heq.1 (by decide)
    · exact absurd heq.2.1 (by decide)
    · exact absurd heq.2.2.1 (by decide)
    · exact absurd heq.2.2.2.1 (by decide)
    · rw [← heq.2.2.2.2.1] at hd
      exact absurd hd (by decide)
    · obtain ⟨rfl, rfl, rfl, rfl, rfl, -⟩ := heq
      exact ⟨e, xs, rfl, hd⟩
  · rintro ⟨d, rest, rfl, hd⟩
    exact ⟨d, rest ++ '$' :: ys, rfl, hd⟩

theorem phcHead_plain (m t p : ℕ) : ∀ c ∈ phcHead m t p, c ≠ 'X' := by
  rintro c hc rfl
  have hnum : ∀ n, 'X' ∉ natText n := fun n hmem => absurd (isDigit_of_mem_natText hmem) (by decide)
  unfold phcHead at hc
  iterate 5 rw [List.mem_append] at hc
  rcases hc with ((((hc | hc) | hc) | hc) | hc) | hc
  · exact absurd hc (by decide)
  · exact hnum m hc
  · exact absurd hc (by decide)
  · exact hnum t hc
  · exact absurd hc (by decide)
  · exact hnum p hc

/-- A match that starts with `X` and has no dollar sign is found in a PHC string where the salt
or the digest has it. -/
theorem search_encode {here : Str → Bool} (hstops : StopsAt here '$') (hnil : here [] = false)
    (hstart : ∀ c cs, c ≠ 'X' → here (c :: cs) = false) (saltHex : Str) (m t p : ℕ) (digest : Str) :
    search here (encodeArgon2idPhc saltHex m t p digest) =
      (search here (base64Encode (hexToBytes saltHex)) || search here digest) := by
  have hhead : search here (phcHead m t p) = false :=
    search_eq_false hnil fun c hc cs => hstart c cs (phcHead_plain m t p c hc)
  rw [encodeArgon2idPhc_parts, search_separated hstops hnil, search_separated hstops hnil, hhead,
    Bool.false_or]

theorem containsXuni_encode (saltHex : Str) (m t p : ℕ) (digest : Str) :
    containsXuni (encodeArgon2idPhc saltHex m t p digest) =
      (containsXuni (base64Encode (hexToBytes saltHex)) || containsXuni digest) := by
  have hstart : ∀ c cs, c ≠ 'X' → xuniHere (c :: cs) = false := by
    intro c cs hc
    unfold xuniHere
    split <;> simp_all
  simp only [containsXuni_eq_search, search_encode xuniHere_stops rfl hstart]

theorem contains_encode (saltHex : Str) (m t p : ℕ) (digest : Str) :
    contains (encodeArgon2idPhc saltHex m t p digest) "XEN11".toList =
      (contains (base64Encode (hexToBytes saltHex)) "XEN11".toList ||
        contains digest "XEN11".toList) := by
  have hstart : ∀ c cs, c ≠ 'X' → "XEN11".toList.isPrefixOf (c :: cs) = false := by
    intro c cs hc
    have hne : ('X' == c) = false := by
      rw [beq_eq_false_iff_ne]
      exact Ne.symm hc
    have hword : "XEN11".toList = 'X' :: "EN11".toList := by decide
    rw [hword, List.isPrefixOf, hne, Bool.false_and]
  have hstops : StopsAt "XEN11".toList.isPrefixOf '$' := stopsAt_isPrefixOf (by decide)
  simp only [contains_eq_search, search_encode hstops rfl hstart]

/-- What the salt may contain without changing the class of a digest. -/
def saltKeepsClass (salt digest blockType : Str) : Prop :=
  let named := namedClass blockType
  let xuni := named = .xuni ∨ containsXuni digest = true
  (containsXuni salt = true → xuni) ∧
    (contains salt "XEN11".toList = true → xuni ∨ named = .xblk ∨
      contains digest "XEN11".toList = true ∨ (isSuperblock digest = false ∧ named = .xnm))

theorem classOf_salt_iff (named : BlockClass) (xuni xen11 super saltXuni saltXen11 : Bool) :
    classOf named (saltXuni || xuni) (saltXen11 || xen11) super = classOf named xuni xen11 super ↔
      (saltXuni = true → named = .xuni ∨ xuni = true) ∧
      (saltXen11 = true → (named = .xuni ∨ xuni = true) ∨ named = .xblk ∨ xen11 = true ∨
        (super = false ∧ named = .xnm)) := by
  cases named <;> cases xuni <;> cases xen11 <;> cases super <;> cases saltXuni <;>
    cases saltXen11 <;> decide

/-- The class of a prepared digest is that of the bare digest if and only if the salt has no
match that makes a difference. -/
theorem prepared_class_iff (hit : BlockHit) (saltHex : Str) (m t p : ℤ)
    (hdigest : ∀ c ∈ hit.hashStr, c ∈ kBase64Chars) :
    (∃ out, prepareHitForSubmit hit saltHex m t p = some out ∧
        out.blockType = classifyBlock hit.hashStr hit.blockType) ↔
      saltKeepsClass (base64Encode (hexToBytes saltHex)) hit.hashStr hit.blockType := by
  have hdollar : '$' ∉ hit.hashStr := fun hmem => by
    have := hdigest _ hmem
    revert this
    decide
  rw [prepareHitForSubmit_bare (isArgon2Encoded_bare hdollar)]
  simp only [Option.some.injEq, exists_eq_left']
  rw [classifyBlock_eq, classifyBlock_eq, containsXuni_encode, contains_encode,
    isSuperblock_encode _ _ _ _ hdollar]
  exact ⟨fun h => (classOf_salt_iff _ _ _ _ _ _).mp (BlockClass.text_inj h),
    fun h => congrArg BlockClass.text ((classOf_salt_iff _ _ _ _ _ _).mpr h)⟩

def plainBlock : BlockHit :=
  { key := List.replicate 64 'a', hashStr := List.replicate 81 'a' ++ "XEN11".toList
    blockType := "XEN11".toList }

def xuniWallet : Str := "5d4348e4".toList ++ List.replicate 32 '0'

theorem prepared_class_zero :
    ∃ out, prepareHitForSubmit plainBlock (List.replicate 40 '0') 1100 1 1 = some out ∧
      out.blockType = classifyBlock plainBlock.hashStr plainBlock.blockType := by
  have hkeeps : saltKeepsClass (base64Encode (hexToBytes (List.replicate 40 '0')))
      plainBlock.hashStr plainBlock.blockType := by
    unfold saltKeepsClass
    decide +kernel
  have hdigest : plainBlock.hashStr.all (fun c => decide (c ∈ kBase64Chars)) = true := by
    decide +kernel
  exact (prepared_class_iff plainBlock (List.replicate 40 '0') 1100 1 1 fun c hc =>
    of_decide_eq_true (List.all_eq_true.mp hdigest c hc)).mpr hkeeps

/-- The wallet turns the block into XUNI. -/
theorem prepared_class_changed :
    classifyBlock plainBlock.hashStr plainBlock.blockType = "XNM".toList ∧
      (prepareHitForSubmit plainBlock xuniWallet 1100 1 1).map (fun out => out.blockType) =
        some "XUNI".toList := by
  decide +kernel

end XnMiner
