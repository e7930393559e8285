import MongoServer.KeyString.NumericOrder

/-!
Byte order of encoded keys is the order of `woCompare`. Each kind of value is written
so that it orders correctly before any tail a string may be followed by; documents and
arrays inherit this from their parts, and a key is a sequence of values with one
direction each.
-/
namespace MongoServer.KeyString
open ByteOrder CType List Ordering OrdersAs Nat Std.ReflOrd

/-- What may follow a string: its first byte is not the second byte of an escaped NUL. -/
def AfterString (d : Bool) (s : List UInt8) : Prop := ∃ c r, s = flipIf d [c] ++ r ∧ c ≠ 0xff

variable {c : UInt8} {a b : BSONValue}

section Leaves
variable {T : List UInt8 → Prop} (d : Bool)

theorem escapeNuls_cons (a : UInt8) (as : List UInt8) : ∃ r, escapeNuls (a :: as) = a :: r := by
  by_cases ha : a = 0
  · exact ⟨0xff :: escapeNuls as, by simp [escapeNuls, ha]⟩
  · exact ⟨escapeNuls as, by simp [escapeNuls, ha]⟩

theorem flipIf_cons_eq (a : UInt8) (as : List UInt8) :
    flipIf d (a :: as) = flipIf d [a] ++ flipIf d as := by
  rw [← flipIf_append]
  rfl

theorem compare_byte_lt {a b : UInt8} (h : a.toNat < b.toNat) :
    compare a b = .lt ∧ compare b a = .gt := by
  rw [compare_byte_eq, compare_byte_eq]
  exact ⟨compare_lt_iff_lt.mpr h, compare_gt_iff_gt.mpr h⟩

theorem compare_zero_byte (h : c ≠ 0) : compare 0 c = .lt ∧ compare c 0 = .gt :=
  compare_byte_lt (pos_of_ne_zero fun hb => h (UInt8.toNat_inj.mp hb))

theorem compare_byte_ff (h : c ≠ 0xff) : compare c 0xff = .lt ∧ compare 0xff c = .gt :=
  compare_byte_lt ((le_of_lt_succ c.toNat_lt).lt_of_ne fun he => h (UInt8.toNat_inj.mp he))

theorem then_directed_lt (o : Ordering) : (directed d .lt).then o = directed d .lt := by
  cases d <;> rfl

theorem then_directed_gt (o : Ordering) : (directed d .gt).then o = directed d .gt := by
  cases d <;> rfl

theorem compare_escapeNuls_nil (b : UInt8) (bs s t : List UInt8) (hs : AfterString d s) :
    compare (flipIf d (escapeNuls []) ++ s) (flipIf d (escapeNuls (b :: bs)) ++ t) =
      directed d .lt := by
  obtain ⟨c, r, rfl, hc⟩ := hs
  by_cases hb : b = 0
  · subst hb
    simp only [escapeNuls, ↓reduceIte]
    rw [flipIf_cons_eq d 0 (0xff :: _), flipIf_cons_eq d 0xff, append_assoc,
      compare_append_left, append_assoc, compare_flipIf_singleton, (compare_byte_ff hc).1,
      then_directed_lt]
  · simp only [escapeNuls, hb, ↓reduceIte]
    rw [flipIf_cons_eq d b, append_assoc, compare_flipIf_singleton, (compare_zero_byte hb).1,
      then_directed_lt]

theorem compare_escapeNuls_cons_nil (a : UInt8) (as s t : List UInt8) (ht : AfterString d t) :
    compare (flipIf d (escapeNuls (a :: as)) ++ s) (flipIf d (escapeNuls []) ++ t) =
      directed d .gt := by
  rw [Std.OrientedOrd.eq_swap, compare_escapeNuls_nil d a as t s ht]
  cases d <;> rfl

theorem ordersAs_escapeNuls (a b : List UInt8) :
    OrdersAs (AfterString d) (flipIf d (escapeNuls a)) (flipIf d (escapeNuls b))
      (directed d (compare a b)) := by
  intro s t hs ht
  induction a generalizing b with
  | nil =>
    cases b with
    | nil => simp
    | cons b bs => rw [compare_escapeNuls_nil d b bs s t hs, List.compare_nil_cons, then_directed_lt]
  | cons a as ih =>
    cases b with
    | nil =>
      rw [compare_escapeNuls_cons_nil d a as s t ht, List.compare_cons_nil, then_directed_gt]
    | cons b bs =>
      by_cases hab : a = b
      · subst hab
        rw [List.compare_cons_cons, Std.ReflOrd.compare_self, Ordering.eq_then, ← ih]
        have hhead (c : UInt8) (p q : List UInt8) : compare (flipIf d (c :: p) ++ s)
            (flipIf d (c :: q) ++ t) = compare (flipIf d p ++ s) (flipIf d q ++ t) := by
          rw [flipIf_cons_eq d c p, flipIf_cons_eq d c q]
          simp [compare_append_left]
        by_cases ha : a = 0 <;> simp [escapeNuls, ha, hhead]
      · obtain ⟨ra, hra⟩ := escapeNuls_cons a as
        obtain ⟨rb, hrb⟩ := escapeNuls_cons b bs
        have hne : compare a b ≠ .eq := fun he => hab (Std.LawfulEqOrd.eq_of_compare he)
        rw [hra, hrb, flipIf_cons_eq d a ra, flipIf_cons_eq d b rb,
          of_ne (T := fun _ => True) d hab _ _ s t trivial trivial,
          List.compare_cons_cons, then_of_ne_eq hne]

theorem ordersAs_terminated {a b : List UInt8} (ha : 0 ∉ a) (hb : 0 ∉ b) :
    OrdersAs T (flipIf d (a ++ [0])) (flipIf d (b ++ [0])) (directed d (compare a b)) := by
  intro s t _ _
  induction a generalizing b with
  | nil =>
    cases b with
    | nil => simp
    | cons b bs =>
      have hb0 : b ≠ 0 := fun h => hb (by simp [h])
      rw [nil_append, cons_append, flipIf_cons_eq d b, append_assoc,
        compare_flipIf_singleton, (compare_zero_byte hb0).1, List.compare_nil_cons, then_directed_lt,
        then_directed_lt]
  | cons a as ih =>
    have ha0 : a ≠ 0 := fun h => ha (by simp [h])
    cases b with
    | nil =>
      rw [nil_append, cons_append, flipIf_cons_eq d a, append_assoc,
        compare_flipIf_singleton, (compare_zero_byte ha0).2, List.compare_cons_nil, then_directed_gt,
        then_directed_gt]
    | cons b bs =>
      have has : 0 ∉ as := fun h => ha (mem_cons_of_mem a h)
      have hbs : 0 ∉ bs := fun h => hb (mem_cons_of_mem b h)
      rw [cons_append, cons_append, flipIf_cons_eq d a, flipIf_cons_eq d b,
        append_assoc, append_assoc, compare_flipIf_singleton, ih has hbs,
        List.compare_cons_cons, directed_then, Ordering.then_assoc]

theorem ordersAs_beBytes {k m n : ℕ} (hm : m < 256 ^ k) (hn : n < 256 ^ k) :
    OrdersAs T (flipIf d (beBytes k m)) (flipIf d (beBytes k n)) (directed d (compare m n)) :=
  fun s t _ _ => compare_flipIf_beBytes d hm hn s t

theorem ordersAs_dataLength {m n : ℕ} (hm : m < 256 ^ 4) (hn : n < 256 ^ 4) :
    OrdersAs T (if m < 0xff then appendByte (UInt8.ofNat m) d
        else appendByte 0xff d ++ appendBytes (beBytes 4 m) d).bytes
      (if n < 0xff then appendByte (UInt8.ofNat n) d
        else appendByte 0xff d ++ appendBytes (beBytes 4 n) d).bytes
      (directed d (compare m n)) := by
  have hne : ∀ {k : ℕ}, k < 0xff → UInt8.ofNat k ≠ 0xff := by
    intro k hk he
    have h := congrArg UInt8.toNat he
    rw [toNat_byte (by omega)] at h
    exact absurd h hk.ne
  by_cases h₁ : m < 0xff <;> by_cases h₂ : n < 0xff
  · rw [if_pos h₁, if_pos h₂]
    have h := flipIf_singleton (T := T) d (UInt8.ofNat m) (UInt8.ofNat n)
    rwa [compare_byte_eq, toNat_byte (by omega), toNat_byte (by omega)] at h
  · rw [if_pos h₁, if_neg h₂, compare_lt_iff_lt.mpr (by omega : m < n),
      ← (compare_byte_ff (hne h₁)).1]
    have h := of_ne (T := T) d (hne h₁) [] (appendBytes (beBytes 4 n) d).bytes
    rwa [append_nil] at h
  · rw [if_neg h₁, if_pos h₂, compare_gt_iff_gt.mpr (by omega : n < m),
      ← (compare_byte_ff (hne h₂)).2]
    have h := of_ne (T := T) d (hne h₂).symm (appendBytes (beBytes 4 m) d).bytes []
    rwa [append_nil] at h
  · rw [if_neg h₁, if_neg h₂]
    exact (ordersAs_beBytes d hm hn).append_left _

/-- A length decides first, and what comes after it where the lengths are the same. -/
theorem ordersAs_sized {m n : ℕ} {x y p q : List UInt8} {o : Ordering}
    (hlen : OrdersAs (fun _ => True) x y (directed d (compare m n)))
    (h : m = n → OrdersAs T p q (directed d o)) :
    OrdersAs T (x ++ p) (y ++ q) (directed d ((compare m n).then o)) := by
  rw [directed_then]
  by_cases hsize : m = n
  · exact hlen.append_any (h hsize)
  · have hne := directed_compare_ne d hsize
    rw [then_of_ne_eq hne]
    exact hlen.append_of_ne hne _ _

theorem ordersAs_binData (l r : BSONBinData) :
    OrdersAs T (appendBinData l d).bytes (appendBinData r d).bytes
      (directed d (ofSign (compareElementValues (.binData l) (.binData r)))) := by
  have hl := l.size_lt
  have hr := r.size_lt
  have hlen := ordersAs_dataLength (T := fun _ => True) d (show l.data.length < 256 ^ 4 by omega)
    (show r.data.length < 256 ^ 4 by omega)
  simp only [appendBinData, bytes_append, append_assoc, compareElementValues]
  rw [ofSign_ite, ofSign_sub, compare_natCast]
  refine append_left _ (ordersAs_sized d hlen fun hsize => ?_)
  have hbytes (b : BSONBinData) : (appendByte b.type d).bytes ++ (appendBytes b.data d).bytes =
      flipIf d (b.type :: b.data) := (flipIf_cons_eq d b.type b.data).symm
  rw [hbytes, hbytes, ofSign_memcmp_of_le (by simp) (by simp [hsize])]
  exact flipIf_of_length_eq d (by simp [hsize])

theorem ordersAs_dbRef (l r : BSONDBRef) :
    OrdersAs T (appendDBRef l d).bytes (appendDBRef r d).bytes
      (directed d (ofSign (compareElementValues (.dbRef l) (.dbRef r)))) := by
  have hl := l.size_lt
  have hr := r.size_lt
  have hlen := ordersAs_beBytes (T := fun _ => True) d
    (show l.ns.bytes.length < 256 ^ 4 by omega) (show r.ns.bytes.length < 256 ^ 4 by omega)
  have hsub : ofSign (((l.ns.bytes.length + 17 : ℕ) : ℤ) - (r.ns.bytes.length + 17 : ℕ)) =
      compare l.ns.bytes.length r.ns.bytes.length := by
    rw [← compare_natCast, ← ofSign_sub]
    congr 1
    push_cast
    ring
  simp only [appendDBRef, bytes_append, appendBytes_bytes, append_assoc, compareElementValues]
  rw [ofSign_ite, hsub]
  refine append_left _ (ordersAs_sized d hlen fun hsize => ?_)
  have hol := l.oid.length_eq
  have hor := r.oid.length_eq
  rw [ofSign_memcmp_of_le (by simp; omega) (by simp; omega), compare_append hsize,
    List.compare_cons_cons, compare_self, eq_then, directed_then]
  exact (flipIf_of_length_eq d hsize).append_any (flipIf_of_length_eq d (hol.trans hor.symm))

theorem ordersAs_regex (lp lf rp rf : CString) :
    OrdersAs T (appendRegex lp lf d).bytes (appendRegex rp rf d).bytes
      (directed d (ofSign (compareElementValues (.regEx lp lf) (.regEx rp rf)))) := by
  have hbytes (p f : CString) : (appendRegex p f d).bytes =
      flipIf d [kRegEx] ++ (flipIf d (p.bytes ++ [0]) ++ flipIf d (f.bytes ++ [0])) := by
    simp [appendRegex]
  simp only [compareElementValues]
  rw [hbytes, hbytes, ofSign_ite, ofSign_strcmp, ofSign_strcmp, directed_then]
  apply append_left
  exact (ordersAs_terminated d lp.noNul rp.noNul).append_any
    (ordersAs_terminated d lf.noNul rf.noNul)

theorem ordersAs_oid (l r : OID) : OrdersAs T (appendOID l d).bytes (appendOID r d).bytes
      (directed d (ofSign (compareElementValues (.jstOID l) (.jstOID r)))) := by
  have hl := l.length_eq
  have hr := r.length_eq
  simp only [compareElementValues]
  rw [ofSign_memcmp_of_le hl.le hr.le]
  exact (flipIf_of_length_eq d (hl.trans hr.symm)).append_left _

theorem ordersAs_bool (l r : Bool) : OrdersAs T (appendBool l d).bytes (appendBool r d).bytes
      (directed d (ofSign (compareElementValues (.bool l) (.bool r)))) := by
  have h := flipIf_singleton (T := T) d (if l then kBoolTrue else kBoolFalse)
    (if r then kBoolTrue else kBoolFalse)
  have hcmp : compare (if l then kBoolTrue else kBoolFalse) (if r then kBoolTrue else kBoolFalse) =
      ofSign (compareElementValues (.bool l) (.bool r)) := by
    simp only [compareElementValues]
    cases l <;> cases r <;> rfl
  rw [hcmp] at h
  exact h

theorem ordersAs_timestamp (l r : BitVec 64) :
    OrdersAs T (appendTimestamp l d).bytes (appendTimestamp r d).bytes
      (directed d (ofSign (compareElementValues (.bsonTimestamp l) (.bsonTimestamp r)))) := by
  have hcmp : ofSign (compareElementValues (.bsonTimestamp l) (.bsonTimestamp r)) =
      compare l.toNat r.toNat := by
    simp only [compareElementValues, BitVec.lt_def, ← BitVec.toNat_inj]
    exact compare_congr (by split_ifs <;> omega) (by split_ifs <;> omega)
  rw [hcmp]
  exact (ordersAs_beBytes d l.isLt r.isLt).append_left _

theorem toNat_xor_signBit (x : BitVec 64) :
    ((x ^^^ (1#64 <<< 63)).toNat : ℤ) = x.toInt + 2 ^ 63 := by
  have hx := x.isLt
  have hnat : (x ^^^ (1#64 <<< 63)).toNat = (x.toNat + 2 ^ 63) % 2 ^ 64 := by
    rw [BitVec.toNat_xor, show (1#64 <<< 63).toNat = 2 ^ 63 from rfl]
    have hdiv := xor_div_two_pow (a := x.toNat) (b := 2 ^ 63) (n := 63)
    have hmod := xor_mod_two_pow (a := x.toNat) (b := 2 ^ 63) (n := 63)
    rw [Nat.mod_self, Nat.xor_zero] at hmod
    rw [Nat.div_self (by norm_num)] at hdiv
    have hq : x.toNat / 2 ^ 63 = 0 ∨ x.toNat / 2 ^ 63 = 1 := by omega
    rcases hq with hq | hq
    · rw [hq, Nat.zero_xor] at hdiv
      omega
    · rw [hq, Nat.xor_self] at hdiv
      omega
  rw [hnat, BitVec.toInt_eq_toNat_cond]
  split_ifs <;> omega

theorem ordersAs_date (l r : BitVec 64) : OrdersAs T (appendDate l d).bytes (appendDate r d).bytes
      (directed d (ofSign (compareElementValues (.date l) (.date r)))) := by
  have hcmp : ofSign (compareElementValues (.date l) (.date r)) =
      compare (l ^^^ (1#64 <<< 63)).toNat (r ^^^ (1#64 <<< 63)).toNat := by
    rw [← compare_natCast, toNat_xor_signBit, toNat_xor_signBit]
    simp only [compareElementValues, ← BitVec.toInt_inj]
    exact compare_congr (by split_ifs <;> omega) (by split_ifs <;> omega)
  rw [hcmp]
  exact (ordersAs_beBytes d (BitVec.isLt _) (BitVec.isLt _)).append_left _

end Leaves

section Types

def typeRank : BSONValue → Fin 17
  | .minKey => 0
  | .undefined => 1
  | .jstNULL => 2
  | .number _ => 3
  | .string _ | .symbol _ => 4
  | .object _ => 5
  | .array _ => 6
  | .binData _ => 7
  | .jstOID _ => 8
  | .bool _ => 9
  | .date _ => 10
  | .bsonTimestamp _ => 11
  | .regEx _ _ => 12
  | .dbRef _ => 13
  | .code _ => 14
  | .codeWScope _ _ => 15
  | .maxKey => 16

/-- Canonical types, generic type bytes and last type bytes by class. -/
private def canonicalOf : Fin 17 → ℤ :=
  ![-1, 0, 5, 10, 15, 20, 25, 30, 35, 40, 45, 47, 50, 55, 60, 65, 127]

private def firstByteOf : Fin 17 → ℕ :=
  ![10, 15, 20, 30, 60, 70, 80, 90, 100, 110, 120, 130, 140, 150, 160, 170, 240]

private def lastByteOf : Fin 17 → ℕ :=
  ![10, 15, 20, 51, 60, 70, 80, 90, 100, 111, 120, 130, 140, 150, 160, 170, 240]

private theorem canonical_eq (a : BSONValue) :
    canonicalizeBSONType a = canonicalOf (typeRank a) := by
  cases a <;> rfl

private theorem generic_eq (a : BSONValue) :
    (bsonTypeToGenericKeyStringType a).toNat = firstByteOf (typeRank a) := by
  cases a <;> rfl

private theorem tables_ordered : ∀ i j : Fin 17, i < j →
    canonicalOf i < canonicalOf j ∧ lastByteOf i < firstByteOf j := by
  decide

private theorem table_bounds : ∀ i : Fin 17, 10 ≤ firstByteOf i ∧
    firstByteOf i ≤ lastByteOf i ∧ lastByteOf i ≤ 240 := by
  decide

theorem compare_canonical_of_ne (h : typeRank a ≠ typeRank b) :
    compare (canonicalizeBSONType a) (canonicalizeBSONType b) =
      compare (typeRank a) (typeRank b) := by
  refine compare_of_rank_ne (fun {a b} hlt => ?_) h
  rw [canonical_eq, canonical_eq]
  exact (tables_ordered _ _ hlt).1

theorem canonical_eq_of_rank_eq (h : typeRank a = typeRank b) :
    canonicalizeBSONType a = canonicalizeBSONType b := by
  rw [canonical_eq, canonical_eq, h]

theorem generic_eq_of_rank_eq (h : typeRank a = typeRank b) :
    bsonTypeToGenericKeyStringType a = bsonTypeToGenericKeyStringType b := by
  apply UInt8.toNat_inj.mp
  rw [generic_eq, generic_eq, h]

variable (v : Version) (d : Bool)

def leadByte : BSONValue → UInt8
  | .number x => (numberForm v x).lead
  | .bool b => if b then kBoolTrue else kBoolFalse
  | a => bsonTypeToGenericKeyStringType a

theorem leadByte_bounds (a : BSONValue) : firstByteOf (typeRank a) ≤ (leadByte v a).toNat ∧
      (leadByte v a).toNat ≤ lastByteOf (typeRank a) := by
  have hgeneric : ∀ c : UInt8, c = bsonTypeToGenericKeyStringType a →
      firstByteOf (typeRank a) ≤ c.toNat ∧ c.toNat ≤ lastByteOf (typeRank a) := by
    rintro c rfl
    have hb := table_bounds (typeRank a)
    have hg := generic_eq a
    omega
  cases a with
  | number x =>
    have hr := NumericForm.lead_region (numberForm v x)
    have hle := NumericForm.region_le (numberForm v x)
    change 30 ≤ (numberForm v x).lead.toNat ∧ (numberForm v x).lead.toNat ≤ 51
    interval_cases hreg : (numberForm v x).region <;> simp only at hr <;> omega
  | bool b => cases b <;> exact ⟨le_of_ble_eq_true rfl, le_of_ble_eq_true rfl⟩
  | _ => exact hgeneric _ rfl

theorem leadByte_range (a : BSONValue) :
    10 ≤ (leadByte v a).toNat ∧ (leadByte v a).toNat ≤ 240 := by
  have hl := leadByte_bounds v a
  have hb := table_bounds (typeRank a)
  omega

theorem value_lead (a : BSONValue) : (appendBsonValue v d a).bytes =
      flipIf d [leadByte v a] ++ (appendBsonValue v d a).bytes.tail := by
  have htail : ∀ {bs r : List UInt8} {c : UInt8}, bs = flipIf d [c] ++ r →
      bs = flipIf d [c] ++ bs.tail := by
    rintro bs r c rfl
    cases d <;> rfl
  cases a with
  | number x =>
    simp only [appendBsonValue, appendNumber_bytes]
    exact htail (r := (numberForm v x).rest d) rfl
  | bool b =>
    simp only [appendBsonValue, appendBool, leadByte]
    exact htail (r := []) (append_nil _).symm
  | _ =>
    simp only [appendBsonValue, appendString, appendSymbol, appendCode, appendBinData, appendOID,
      appendDate, appendTimestamp, appendRegex, appendDBRef, bytes_append, appendTypeBits_bytes,
      nil_append, append_assoc]
    first
      | exact htail rfl
      | exact htail (append_nil _).symm

/-- Two values that are written before what may follow a string. -/
def ValuesOrder (a b : BSONValue) (o : Ordering) : Prop :=
  OrdersAs (AfterString d) (appendBsonValue v d a).bytes (appendBsonValue v d b).bytes
    (directed d o)

theorem ordersAs_of_rank_ne (h : typeRank a ≠ typeRank b) :
    ValuesOrder v d a b (compare (typeRank a) (typeRank b)) := by
  have hcmp : compare (leadByte v a) (leadByte v b) = compare (typeRank a) (typeRank b) := by
    rw [compare_byte_eq]
    refine compare_of_rank_ne (f := fun a => (leadByte v a).toNat) (fun {a b} hlt => ?_) h
    exact (leadByte_bounds v a).2.trans_lt
      ((tables_ordered _ _ hlt).2.trans_le (leadByte_bounds v b).1)
  have hne : leadByte v a ≠ leadByte v b := by
    intro he
    rw [he, compare_self] at hcmp
    exact h (compare_eq_iff_eq.mp hcmp.symm)
  rw [ValuesOrder, value_lead v d a, value_lead v d b, ← hcmp]
  exact of_ne d hne _ _

theorem generic_compare_of_ne (h : typeRank a ≠ typeRank b) :
    compare (bsonTypeToGenericKeyStringType a) (bsonTypeToGenericKeyStringType b) =
      compare (typeRank a) (typeRank b) := by
  rw [compare_byte_eq, generic_eq, generic_eq]
  refine compare_of_rank_ne (f := fun a => firstByteOf (typeRank a)) (fun {a b} hlt => ?_) h
  exact (table_bounds (typeRank a)).2.1.trans_lt (tables_ordered _ _ hlt).2

theorem afterString_of_byte {d : Bool} (h : c ≠ 0xff) (r : List UInt8) :
    AfterString d (flipIf d [c] ++ r) := ⟨c, r, rfl, h⟩

theorem value_first_byte (a : BSONValue) :
    ∃ c r, (appendBsonValue v d a).bytes = c :: r ∧ 10 ≤ c.toNat ∧ c.toNat ≤ 245 := by
  obtain ⟨hl, hu⟩ := leadByte_range v a
  rw [value_lead v d a]
  cases d with
  | false => exact ⟨_, _, rfl, hl, by omega⟩
  | true =>
    refine ⟨_, _, rfl, ?_⟩
    rw [UInt8.toNat_not, UInt8.size]
    omega

theorem afterString_cons (d : Bool) (h : 1 ≤ c.toNat ∧ c.toNat ≤ 254) (s : List UInt8) :
    AfterString d (c :: s) := by
  refine ⟨if d then ~~~c else c, s, by cases d <;> simp [flipIf], fun hff => ?_⟩
  have hn := congrArg UInt8.toNat hff
  split_ifs at hn
  · rw [UInt8.toNat_not, show (0xff : UInt8).toNat = 255 from rfl, UInt8.size] at hn
    omega
  · rw [show (0xff : UInt8).toNat = 255 from rfl] at hn
    omega

theorem afterString_value (d e : Bool) (a : BSONValue) (s : List UInt8) :
    AfterString d ((appendBsonValue v e a).bytes ++ s) := by
  obtain ⟨c, r, hbytes, hl, hu⟩ := value_first_byte v e a
  rw [hbytes]
  exact afterString_cons d (by omega) _

theorem generic_bounds (a : BSONValue) :
    bsonTypeToGenericKeyStringType a ≠ 0 ∧ bsonTypeToGenericKeyStringType a ≠ 0xff := by
  have hb := table_bounds (typeRank a)
  have hg := generic_eq a
  constructor <;> intro he <;> rw [he] at hg
  · rw [show (0 : UInt8).toNat = 0 from rfl] at hg
    omega
  · rw [show (0xff : UInt8).toNat = 255 from rfl] at hg
    omega

theorem afterString_bson (fields : BSONObj) (s : List UInt8) :
    AfterString d ((appendBson v d fields).bytes ++ s) := by
  cases fields with
  | nil => exact ⟨0, s, by simp [appendBson], by decide⟩
  | cons field rest =>
    simp only [appendBson, bytes_append, append_assoc]
    exact afterString_of_byte (generic_bounds field.2).2 _

theorem afterString_array (elems : List BSONValue) (s : List UInt8) :
    AfterString d ((appendArray v d elems).bytes ++ s) := by
  cases elems with
  | nil => exact ⟨0, s, by simp [appendArray], by decide⟩
  | cons a rest =>
    simp only [appendArray, bytes_append, append_assoc]
    exact afterString_value v d d a _

end Types

section Values

/-- The type is compared first, then the name if it counts, then the value. -/
theorem ofSign_elementOrder (names : Bool) (l r : CString × BSONValue) (x : ℤ) :
    ofSign (elementOrder names l r x) =
      (compare (canonicalizeBSONType l.2) (canonicalizeBSONType r.2)).then
        ((if names then compare l.1.bytes r.1.bytes else .eq).then (ofSign x)) := by
  by_cases hrank : typeRank l.2 = typeRank r.2
  · have hc := canonical_eq_of_rank_eq hrank
    simp only [elementOrder, hc, sub_self, ne_eq, not_true_eq_false, false_and, ↓reduceIte,
      compare_self, eq_then]
    rw [ofSign_ite]
    cases names <;> simp [ofSign_strcmp]
  · have hne : compare (canonicalizeBSONType l.2) (canonicalizeBSONType r.2) ≠ .eq := by
      rw [compare_canonical_of_ne hrank]
      simpa using hrank
    have hx : canonicalizeBSONType l.2 - canonicalizeBSONType r.2 ≠ 0 := by
      intro h0
      rw [sub_eq_zero.mp h0] at hne
      simp at hne
    have hnum : (!l.2.isNumber || !r.2.isNumber) = true := by
      cases hl : l.2 <;> cases hr : r.2 <;> simp [BSONValue.isNumber]
      rw [hl, hr] at hrank
      exact absurd rfl hrank
    simp only [elementOrder]
    rw [if_pos ⟨hx, hnum⟩, ofSign_sub, then_of_ne_eq hne]

variable (v : Version) (d : Bool)

/-- What is to be shown of two values, from the values of one class. -/
theorem ordersAs_of_sameType (l r : CString)
    (h : typeRank a = typeRank b → ValuesOrder v d a b (ofSign (compareElementValues a b))) :
    ValuesOrder v d a b (ofSign (elementOrder false (l, a) (r, b) (compareElementValues a b))) := by
  rw [ofSign_elementOrder, if_neg (by decide), eq_then]
  by_cases hrank : typeRank a = typeRank b
  · rw [canonical_eq_of_rank_eq hrank, compare_self, eq_then]
    exact h hrank
  · have hne : compare (typeRank a) (typeRank b) ≠ .eq := by simpa using hrank
    rw [compare_canonical_of_ne hrank, then_of_ne_eq hne]
    exact ordersAs_of_rank_ne v d hrank

theorem ordersAs_stringLike (c : UInt8) (l r : List UInt8) :
    OrdersAs (AfterString d) (flipIf d [c] ++ flipIf d (escapeNuls l))
      (flipIf d [c] ++ flipIf d (escapeNuls r))
      (directed d (ofSign (compareElementStringValues l r))) := by
  rw [ofSign_compareElementStringValues]
  exact (ordersAs_escapeNuls d l r).append_left _

theorem ordersAs_contentless (c : UInt8) (t : ℤ) :
    OrdersAs (AfterString d) (flipIf d [c]) (flipIf d [c]) (directed d (ofSign (t - t).sign)) := by
  intro s u _ _
  simp

def isLeaf : BSONValue → Bool
  | .object _ | .array _ | .codeWScope _ _ => false
  | _ => true

theorem ordersAs_leaf (hleaf : isLeaf a) (h : typeRank a = typeRank b) :
    ValuesOrder v d a b (ofSign (compareElementValues a b)) := by
  unfold ValuesOrder
  cases a with
  | object _ | array _ | codeWScope _ _ => simp [isLeaf] at hleaf
  | minKey | undefined | jstNULL | maxKey =>
    cases b <;> simp [typeRank] at h
    simp only [appendBsonValue, compareElementValues]
    exact ordersAs_contentless d _ _
  | number x =>
    cases b <;> simp [typeRank] at h
    intro s t _ _
    simp only [appendBsonValue, compareElementValues]
    exact compare_appendNumber v d x _ s t
  | string l | symbol l =>
    cases b <;> simp [typeRank] at h
    all_goals
      simp only [appendBsonValue, compareElementValues]
      exact ordersAs_stringLike d kStringLike l _
  | code l =>
    cases b <;> simp [typeRank] at h
    simp only [appendBsonValue, compareElementValues]
    exact ordersAs_stringLike d kCode l _
  | _ =>
    cases b <;> simp [typeRank] at h
    first
      | exact ordersAs_binData d _ _
      | exact ordersAs_oid d _ _
      | exact ordersAs_bool d _ _
      | exact ordersAs_date d _ _
      | exact ordersAs_timestamp d _ _
      | exact ordersAs_dbRef d _ _
      | exact ordersAs_regex d _ _ _ _

theorem ordersAs_end {T : List UInt8 → Prop} (hc : c ≠ 0) (r : List UInt8) :
    OrdersAs T (flipIf d [0]) (flipIf d [c] ++ r) (directed d .lt) ∧
      OrdersAs T (flipIf d [c] ++ r) (flipIf d [0]) (directed d .gt) := by
  have hlt := of_ne (T := T) d hc.symm [] r
  have hgt := of_ne (T := T) d hc r []
  rw [append_nil, (compare_zero_byte hc).1] at hlt
  rw [append_nil, (compare_zero_byte hc).2] at hgt
  exact ⟨hlt, hgt⟩

theorem leadByte_ne (hc : c.toNat < 10 ∨ 240 < c.toNat) (a : BSONValue) : leadByte v a ≠ c := by
  rintro rfl
  have hl := leadByte_range v a
  omega

mutual
theorem ordersAs_sameType (a b : BSONValue) (h : typeRank a = typeRank b) :
    ValuesOrder v d a b (ofSign (compareElementValues a b)) := by
  cases a with
  | object l =>
    cases b with
    | object r =>
      simp only [ValuesOrder, appendBsonValue, compareElementValues]
      exact (ordersAs_bson l r).append_left _
    | _ => simp [typeRank] at h
  | array l =>
    cases b with
    | array r =>
      simp only [ValuesOrder, appendBsonValue, compareElementValues]
      exact (ordersAs_array l r).append_left _
    | _ => simp [typeRank] at h
  | codeWScope lc ls =>
    cases b with
    | codeWScope rc rs =>
      simp only [ValuesOrder, appendBsonValue, compareElementValues, bytes_append, append_assoc]
      rw [ofSign_ite, ofSign_compareStringData, directed_then]
      apply append_left
      exact (ordersAs_escapeNuls d lc rc).append (ordersAs_bson ls rs)
        (fun s _ => afterString_bson v d ls s) (fun s _ => afterString_bson v d rs s)
    | _ => simp [typeRank] at h
  | _ => exact ordersAs_leaf v d rfl h

theorem ordersAs_bson : ∀ l r : BSONObj,
    OrdersAs (AfterString d) (appendBson v d l).bytes (appendBson v d r).bytes
      (directed d (ofSign (woCompareNested l r)))
  | [], [] => by
    intro s t _ _
    simp [appendBson, woCompareNested]
  | [], (rn, rv) :: rs => by
    simp only [appendBson, woCompareNested, bytes_append, append_assoc]
    exact (ordersAs_end d (generic_bounds rv).1 _).1
  | (ln, lv) :: ls, [] => by
    simp only [appendBson, woCompareNested, bytes_append, append_assoc]
    exact (ordersAs_end d (generic_bounds lv).1 _).2
  | (ln, lv) :: ls, (rn, rv) :: rs => by
    simp only [appendBson, woCompareNested, bytes_append, append_assoc]
    rw [ofSign_ite, ofSign_elementOrder]
    by_cases hrank : typeRank lv = typeRank rv
    · rw [canonical_eq_of_rank_eq hrank, Std.ReflOrd.compare_self, eq_then,
        generic_eq_of_rank_eq hrank, if_pos rfl, directed_then, directed_then,
        then_assoc]
      apply append_left
      apply (ordersAs_terminated d ln.noNul rn.noNul).append_any
      exact (ordersAs_sameType lv rv hrank).append (ordersAs_bson ls rs)
        (fun s _ => afterString_bson v d ls s) (fun s _ => afterString_bson v d rs s)
    · have hne : compare (typeRank lv) (typeRank rv) ≠ .eq := by simpa using hrank
      rw [compare_canonical_of_ne hrank, then_of_ne_eq hne, then_of_ne_eq hne,
        ← generic_compare_of_ne hrank]
      apply of_ne
      intro he
      rw [← generic_compare_of_ne hrank, he, Std.ReflOrd.compare_self] at hne
      exact hne rfl

theorem ordersAs_array : ∀ l r : List BSONValue,
    OrdersAs (AfterString d) (appendArray v d l).bytes (appendArray v d r).bytes
      (directed d (ofSign (woCompareArrays l r)))
  | [], [] => by
    intro s t _ _
    simp [appendArray, woCompareArrays]
  | [], rv :: rs => by
    simp only [appendArray, woCompareArrays, bytes_append]
    rw [value_lead v d rv, append_assoc]
    exact (ordersAs_end d (leadByte_ne v (.inl (by decide)) rv) _).1
  | lv :: ls, [] => by
    simp only [appendArray, woCompareArrays, bytes_append]
    rw [value_lead v d lv, append_assoc]
    exact (ordersAs_end d (leadByte_ne v (.inl (by decide)) lv) _).2
  | lv :: ls, rv :: rs => by
    simp only [appendArray, woCompareArrays, bytes_append]
    rw [ofSign_ite, directed_then]
    exact (ordersAs_of_sameType v d _ _ (ordersAs_sameType lv rv)).append
      (ordersAs_array ls rs) (fun s _ => afterString_array v d ls s)
      (fun s _ => afterString_array v d rs s)
end

theorem ordersAs_value (a b : BSONValue) (l r : CString) :
    ValuesOrder v d a b (ofSign (woCompareElement false (l, a) (r, b))) :=
  ordersAs_of_sameType v d l r (ordersAs_sameType v d a b)

end Values

section Keys

/-- What the element loop writes for unnamed elements. -/
def elements (v : Version) (ord : KeyOrdering) : ℕ → BSONObj → Piece
  | _, [] => appendBytes [] false
  | i, (_, a) :: rest => appendBsonValue v (ord.get i == -1) a ++ elements v ord (i + 1) rest

variable (v : Version) (ord : KeyOrdering)

theorem appendElementsFrom_unnamed (disc : Discriminator) (obj : BSONObj)
    (h : ∀ e ∈ obj, e.1 = CString.empty) (i : ℕ) :
    appendElementsFrom v ord i obj disc = some (elements v ord i obj, disc) := by
  induction obj generalizing i with
  | nil => rfl
  | cons e rest ih =>
    obtain ⟨name, a⟩ := e
    have hname : name = CString.empty := h (name, a) mem_cons_self
    have hrest := ih (forall_mem_cons.mp h).2 (i + 1)
    subst hname
    simp [appendElementsFrom, discriminatorAfter, CString.empty, hrest, elements]

theorem appendAllElementsForIndexing_key (k : IndexKey) :
    appendAllElementsForIndexing v k.obj ord .kInclusive =
      some (elements v ord 0 k.obj ++ appendBytes [] false ++ appendByte kEnd false) := by
  simp [appendAllElementsForIndexing, appendElementsFrom_unnamed v ord .kInclusive k.obj k.unnamed,
    appendDiscriminator]

theorem shift_one_succ (i : ℕ) : (1#32 <<< i) <<< 1 = 1#32 <<< (i + 1) :=
  (BitVec.shiftLeft_add 1#32 i 1).symm

theorem ofSign_direction (i : ℕ) (x : ℤ) :
    ofSign (if ord.bits &&& (1#32 <<< i) ≠ 0 then -x else x) =
      directed (ord.get i == -1) (ofSign x) := by
  rw [KeyOrdering.get, BitVec.and_comm]
  by_cases h : (1#32 <<< i) &&& ord.bits = 0
  · simp [h]
  · rw [if_pos h, if_pos h, ofSign_neg]
    rfl

theorem afterString_kEnd (d : Bool) (s : List UInt8) : AfterString d (kEnd :: s) :=
  afterString_cons d (by decide) s

theorem afterString_elements (d : Bool) (i : ℕ) (obj : BSONObj) (s : List UInt8) :
    AfterString d ((elements v ord i obj).bytes ++ kEnd :: s) := by
  cases obj with
  | nil => exact afterString_kEnd d s
  | cons e rest =>
    simp only [elements, bytes_append, append_assoc]
    exact afterString_value v d (ord.get i == -1) e.2 _

theorem kEnd_lt_value (d : Bool) (a : BSONValue) :
    ∃ c r, (appendBsonValue v d a).bytes = c :: r ∧ compare kEnd c = .lt := by
  obtain ⟨c, r, hbytes, hl, -⟩ := value_first_byte v d a
  exact ⟨c, r, hbytes, (compare_byte_lt (lt_of_lt_of_le (by decide) hl)).1⟩

/-- Keys from position `i` on, followed by whatever a key may carry after its end. -/
theorem compare_elements (i : ℕ) (l r : BSONObj) (s t : List UInt8) :
    compare ((elements v ord i l).bytes ++ kEnd :: s) ((elements v ord i r).bytes ++ kEnd :: t) =
      (ofSign (woCompareFrom ord false (1#32 <<< i) l r)).then (compare s t) := by
  induction l generalizing i r with
  | nil =>
    cases r with
    | nil => simp [elements, woCompareFrom, List.compare_cons_cons]
    | cons e rest =>
      obtain ⟨c, q, he, hlt⟩ := kEnd_lt_value v (ord.get i == -1) e.2
      simp only [elements, bytes_append, he, woCompareFrom, appendBytes_bytes, flipIf_nil,
        List.nil_append, List.cons_append, List.compare_cons_cons, hlt]
      rfl
  | cons e rest ih =>
    cases r with
    | nil =>
      obtain ⟨c, q, he, hlt⟩ := kEnd_lt_value v (ord.get i == -1) e.2
      have hgt := Std.OrientedCmp.gt_iff_lt.mpr hlt
      simp only [elements, bytes_append, he, woCompareFrom, appendBytes_bytes, flipIf_nil,
        List.nil_append, List.cons_append, List.compare_cons_cons, hgt]
      rfl
    | cons f rest' =>
      have hvalue := ordersAs_value v (ord.get i == -1) e.2 f.2 e.1 f.1
      simp only [elements, bytes_append, woCompareFrom, append_assoc, shift_one_succ]
      rw [hvalue _ _ (afterString_elements v ord _ _ rest s) (afterString_elements v ord _ _ rest' t),
        ih, ofSign_ite, ofSign_direction, then_assoc]

theorem ofSign_keyStringCompare (a b : List UInt8) : ofSign (keyStringCompare a b) = compare a b := by
  have hthree : ofSign (if a.length = b.length then 0 else if a.length < b.length then -1 else 1) =
      compare a.length b.length :=
    compare_congr (by split_ifs <;> omega) (by split_ifs <;> omega)
  rw [← compare_take_then_length, ← hthree, ← ofSign_memcmp, ← ofSign_ite]
  simp only [keyStringCompare]
  generalize memcmp a b (min a.length b.length) = x
  exact compare_congr (by split_ifs <;> omega) (by split_ifs <;> omega)

end Keys

end MongoServer.KeyString
