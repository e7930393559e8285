import MongoServer.KeyString.NumericRoundTrip

/-!
`KeyString::toBson` undoes `appendAllElementsForIndexing`. Bytes and type bits are consumed
in step at every depth, so a nested value is read back with its own types. The end of a key
is written without inversion but read in the direction of the position after it.
-/
namespace MongoServer.KeyString
open ByteOrder ByteReading Binary64 List TypeBits

mutual
def canonicalNaNs : BSONValue → Bool
  | .number (.numberDouble d) => !isNaN d || d == canonicalNaN
  | .object fields => canonicalFields fields
  | .array elems => canonicalElements elems
  | .codeWScope _ scope => canonicalFields scope
  | _ => true

def canonicalFields : BSONObj → Bool
  | [] => true
  | (_, a) :: rest => canonicalNaNs a && canonicalFields rest

def canonicalElements : List BSONValue → Bool
  | [] => true
  | a :: rest => canonicalNaNs a && canonicalElements rest
end

section Values
variable (v : Version) (inverted : Bool)

@[simp] theorem tail_flipIf_append (c : UInt8) (r : List UInt8) :
    (flipIf inverted [c] ++ r).tail = r := by
  cases inverted <;> rfl

@[simp] theorem tail_flipIf_singleton (c : UInt8) : (flipIf inverted [c]).tail = [] := by
  cases inverted <;> rfl

theorem toBsonValue_number {c : UInt8} (hlo : 30 ≤ c.toNat) (hhi : c.toNat ≤ 51) (fuel : ℕ) :
    toBsonValue v inverted (fuel + 1) c =
      (do let number ← toBsonNumber v c inverted; return .number number) := by
  have hc : c = UInt8.ofNat c.toNat := UInt8.ofNat_toNat.symm
  rw [hc]
  interval_cases c.toNat <;> rfl

theorem consumes_number (x : Number) (hx : canonicalNaNs (.number x)) (fuel : ℕ) :
    Consumes At (AfterString inverted) (toBsonValue v inverted (fuel + 1) (leadByte v (.number x)))
      (appendBsonValue v inverted (.number x)).bytes.tail
      (appendBsonValue v inverted (.number x)).bits (.number x) := by
  have hnan : ∀ d, x = .numberDouble d → isNaN d = true → d = canonicalNaN := by
    rintro d rfl hd
    simpa [canonicalNaNs, hd] using hx
  have hbounds := leadByte_bounds v (.number x)
  have hbytes : (appendBsonValue v inverted (.number x)).bytes.tail =
      (numberForm v x).rest inverted := by
    rw [appendBsonValue, appendNumber_bytes, NumericForm.encode, tail_flipIf_append]
  rw [toBsonValue_number v inverted hbounds.1 hbounds.2, hbytes]
  simp only [appendBsonValue]
  exact (readsBack_number v inverted x hnan).bind_return rfl

theorem consumes_leaf (fuel : ℕ) {a : BSONValue} (hleaf : isLeaf a) (ha : canonicalNaNs a) :
    Consumes At (AfterString inverted) (toBsonValue v inverted (fuel + 1) (leadByte v a))
      (appendBsonValue v inverted a).bytes.tail (appendBsonValue v inverted a).bits a := by
  cases a with
  | object _ | array _ | codeWScope _ _ => simp [isLeaf] at hleaf
  | number x => exact consumes_number v inverted x ha fuel
  | bool b =>
    simp only [appendBsonValue, appendBool, appendByte_bytes, tail_flipIf_singleton]
    cases b <;> exact Consumes.pure _
  | binData b =>
    obtain ⟨bytes, hbytes, hread⟩ := consumes_readBinData (T := AfterString inverted) inverted b
    simp only [appendBsonValue, hbytes, tail_flipIf_append]
    have hbits : (appendBinData b inverted).bits = [] := by
      simp only [appendBinData]
      split <;> rfl
    rw [hbits]
    exact hread.bind_return rfl
  | jstOID o =>
    simp only [appendBsonValue, appendOID, bytes_append, appendByte_bytes, tail_flipIf_append]
    exact (consumes_readOID inverted o).bind_return rfl
  | date t =>
    simp only [appendBsonValue, appendDate, bytes_append, appendByte_bytes, tail_flipIf_append]
    apply (consumes_readBigEndian inverted (t ^^^ (1#64 <<< 63)).isLt).bind_return
    rw [BitVec.ofNat_toNat, BitVec.setWidth_eq, BitVec.xor_assoc, BitVec.xor_self, BitVec.xor_zero]
  | bsonTimestamp t =>
    simp only [appendBsonValue, appendTimestamp, bytes_append, appendByte_bytes, tail_flipIf_append]
    apply (consumes_readBigEndian inverted t.isLt).bind_return
    simp
  | string s =>
    simp only [appendBsonValue, appendString, bytes_append, appendTypeBits_bytes, nil_append, appendByte_bytes,
      tail_flipIf_append]
    exact consumes_readStringLike inverted false s
  | symbol s =>
    simp only [appendBsonValue, appendSymbol, bytes_append, appendTypeBits_bytes, nil_append, appendByte_bytes,
      tail_flipIf_append]
    exact consumes_readStringLike inverted true s
  | code c =>
    simp only [appendBsonValue, appendCode, bytes_append, appendByte_bytes, tail_flipIf_append]
    exact (consumes_readCStringWithNuls inverted c).bind_return rfl
  | regEx p f =>
    simp only [appendBsonValue, appendRegex, bytes_append, append_assoc, appendByte_bytes,
      tail_flipIf_append]
    simp only [appendBytes_bytes]
    rw [← append_assoc, ← flipIf_append, ← flipIf_append]
    apply (consumes_readName inverted p).bind_any (b := []) (c := [])
    exact (consumes_readName inverted f).bind_return rfl
  | dbRef r =>
    simp only [appendBsonValue, appendDBRef, bytes_append, append_assoc, appendByte_bytes,
      tail_flipIf_append]
    exact (consumes_readDBRef inverted r).bind_return rfl
  | _ =>
    simp only [appendBsonValue, appendByte_bytes, tail_flipIf_singleton]
    exact Consumes.pure _

theorem length_value_pos (a : BSONValue) : 0 < (appendBsonValue v inverted a).bytes.length := by
  rw [value_lead v inverted a, length_append, length_flipIf, length_singleton]
  omega

mutual
/-- A value is read back after its type byte; its own length is fuel enough. -/
theorem consumes_value (a : BSONValue) (fuel : ℕ) (ha : canonicalNaNs a)
    (hfuel : (appendBsonValue v inverted a).bytes.length ≤ fuel) :
    Consumes At (AfterString inverted) (toBsonValue v inverted fuel (leadByte v a))
      (appendBsonValue v inverted a).bytes.tail (appendBsonValue v inverted a).bits a := by
  cases fuel with
  | zero => exact absurd (length_value_pos v inverted a) (by omega)
  | succ fuel =>
  cases a with
  | object fields =>
    simp only [appendBsonValue, bytes_append, length_append, appendByte_bytes, length_flipIf,
      length_singleton, tail_flipIf_append] at hfuel ⊢
    exact (consumes_fields fields fuel ha (by omega)).bind_return rfl
  | array elems =>
    simp only [appendBsonValue, bytes_append, length_append, appendByte_bytes, length_flipIf,
      length_singleton, tail_flipIf_append] at hfuel ⊢
    exact (consumes_elements elems fuel ha (by omega)).bind_return rfl
  | codeWScope code scope =>
    simp only [appendBsonValue, bytes_append, length_append, appendByte_bytes, length_flipIf,
      length_singleton, append_assoc, tail_flipIf_append] at hfuel ⊢
    refine (consumes_readCStringWithNuls inverted code).bind (b := []) ?_ ?_
    · exact (consumes_fields scope fuel ha (by omega)).bind_return rfl
    · exact fun s _ => afterString_bson v inverted scope s
  | _ => exact consumes_leaf v inverted fuel rfl ha

theorem consumes_fields : ∀ (fields : BSONObj) (fuel : ℕ), canonicalFields fields →
    (appendBson v inverted fields).bytes.length ≤ fuel →
    Consumes At (AfterString inverted) (toBsonFields v inverted fuel)
      (appendBson v inverted fields).bytes (appendBson v inverted fields).bits fields
  | [], 0, _, hfuel | (name, a) :: rest, 0, _, hfuel => by simp [appendBson] at hfuel
  | [], fuel + 1, _, _ => (consumes_readByte inverted 0).bind_return rfl
  | (name, a) :: rest, fuel + 1, ha, hfuel => by
    rw [canonicalFields, Bool.and_eq_true] at ha
    simp only [appendBson, bytes_append, length_append, appendByte_bytes, length_flipIf,
      length_singleton] at hfuel
    simp only [appendBson, bytes_append, bits_append, appendByte_bytes, appendBytes_bytes,
      appendByte_bits, appendBytes_bits, append_assoc, nil_append]
    rw [toBsonFields, value_lead v inverted a, append_assoc]
    apply (consumes_readByte inverted _).bind_any (b := [])
    rw [if_neg (generic_bounds a).1]
    apply (consumes_readName inverted name).bind_any (b := [])
    apply (consumes_readByte inverted (leadByte v a)).bind_any (b := [])
    refine (consumes_value a fuel ha.1 (by omega)).bind ?_ ?_
    · exact (consumes_fields rest fuel ha.2 (by omega)).bind_return rfl
    · exact fun s _ => afterString_bson v inverted rest s

theorem consumes_elements : ∀ (elems : List BSONValue) (fuel : ℕ), canonicalElements elems →
    (appendArray v inverted elems).bytes.length ≤ fuel →
    Consumes At (AfterString inverted) (toBsonArray v inverted fuel)
      (appendArray v inverted elems).bytes (appendArray v inverted elems).bits elems
  | [], 0, _, hfuel => by simp [appendArray] at hfuel
  | [], fuel + 1, _, _ => (consumes_readByte inverted 0).bind_return rfl
  | a :: rest, 0, _, hfuel => by
    have hpos := length_value_pos v inverted a
    simp only [appendArray, bytes_append, length_append] at hfuel
    omega
  | a :: rest, fuel + 1, ha, hfuel => by
    rw [canonicalElements, Bool.and_eq_true] at ha
    have hpos : 0 < (appendArray v inverted rest).bytes.length := by
      cases rest with
      | nil => simp [appendArray]
      | cons b rest =>
        have hb := length_value_pos v inverted b
        rw [appendArray, bytes_append, length_append]
        omega
    simp only [appendArray, bytes_append, length_append] at hfuel
    simp only [appendArray, bytes_append, bits_append]
    have hvalue := length_value_pos v inverted a
    rw [toBsonArray, value_lead v inverted a, append_assoc]
    apply (consumes_readByte inverted (leadByte v a)).bind_any (b := [])
    rw [if_neg (leadByte_ne v (.inl (by decide)) a)]
    refine (consumes_value a fuel ha.1 (by omega)).bind ?_ ?_
    · exact (consumes_elements rest fuel ha.2 (by omega)).bind_return rfl
    · exact fun s _ => afterString_array v inverted rest s
end

end Values

section Keys
variable (v : Version) (ord : KeyOrdering)

theorem toBsonElements_of_ne_nil (fuel i : ℕ) {r : Reader} (h : r.remaining ≠ []) :
    toBsonElements v ord (fuel + 1) i r = (do
        let first ← readByte (ord.get i == -1)
        let ctype ← (if first = kLess ∨ first = kGreater then readByte (ord.get i == -1)
          else pure first : Read UInt8)
        if ctype = kEnd then return []
        else do
          let value ← toBsonValue v (ord.get i == -1) fuel ctype
          let rest ← toBsonElements v ord fuel (i + 1)
          return (CString.empty, value) :: rest : Read BSONObj) r := by
  rw [toBsonElements]
  exact if_neg (by simpa using h)

theorem remaining_ne_nil {r : Reader} {p s : List UInt8} {bs : List Bool} (hp : 0 < p.length)
    (hat : At r (p ++ s) bs) : r.remaining ≠ [] := by
  rw [hat.1, ← length_pos_iff, length_append]
  omega

theorem consumes_end {i : ℕ} (hend : ord.get i = 1) (fuel : ℕ) :
    Consumes At (fun _ => True) (toBsonElements v ord (fuel + 1) i) [kEnd] [] [] := by
  refine Consumes.congr ?_ fun r s bs hat =>
    toBsonElements_of_ne_nil v ord fuel i (remaining_ne_nil (by decide) hat)
  rw [hend]
  exact (consumes_readByte false kEnd).bind_return rfl

theorem consumes_element (a : BSONValue) (ha : canonicalNaNs a) (rest : BSONObj) {i fuel : ℕ}
    {q : List UInt8} {c : List Bool}
    (hfuel : (appendBsonValue v (ord.get i == -1) a).bytes.length ≤ fuel)
    (hq : ∀ d s, AfterString d (q ++ s))
    (hrest : Consumes At (fun _ => True) (toBsonElements v ord fuel (i + 1)) q c rest) :
    Consumes At (fun _ => True) (toBsonElements v ord (fuel + 1) i)
      ((appendBsonValue v (ord.get i == -1) a).bytes ++ q)
      ((appendBsonValue v (ord.get i == -1) a).bits ++ c) ((CString.empty, a) :: rest) := by
  have hpos : 0 < ((appendBsonValue v (ord.get i == -1) a).bytes ++ q).length := by
    have hvalue := length_value_pos v (ord.get i == -1) a
    rw [length_append]
    omega
  refine Consumes.congr ?_ fun r s bs hat =>
    toBsonElements_of_ne_nil v ord fuel i (remaining_ne_nil hpos hat)
  rw [value_lead v _ a, append_assoc]
  apply (consumes_readByte _ (leadByte v a)).bind_any (b := [])
  have hless : leadByte v a ≠ kLess := leadByte_ne v (.inl (by decide)) a
  have hgreater : leadByte v a ≠ kGreater := leadByte_ne v (.inr (by decide)) a
  rw [if_neg (by simp [hless, hgreater])]
  apply (Consumes.pure (leadByte v a)).bind_any (p := []) (b := [])
  rw [if_neg (leadByte_ne v (.inl (by decide)) a)]
  refine (consumes_value v _ a fuel ha hfuel).bind ?_ fun s _ => hq _ s
  exact hrest.bind_return rfl

/-- The loop over a key reads its elements and then its end, which it recognises only at
an ascending position. -/
theorem consumes_key (obj : BSONObj) (hnames : ∀ e ∈ obj, e.1 = CString.empty)
    (hcanon : canonicalFields obj) (i fuel : ℕ) (hend : ord.get (i + obj.length) = 1)
    (hfuel : (elements v ord i obj).bytes.length < fuel) :
    Consumes At (fun _ => True) (toBsonElements v ord fuel i)
      ((elements v ord i obj).bytes ++ [kEnd]) (elements v ord i obj).bits obj := by
  induction obj generalizing i fuel with
  | nil =>
    obtain ⟨fuel, rfl⟩ := Nat.exists_eq_add_of_lt hfuel
    exact consumes_end v ord hend _
  | cons e rest ih =>
    obtain ⟨name, a⟩ := e
    obtain rfl : name = CString.empty := hnames (name, a) mem_cons_self
    rw [canonicalFields, Bool.and_eq_true] at hcanon
    rw [length_cons, Nat.add_comm rest.length, ← Nat.add_assoc] at hend
    simp only [elements, bytes_append, length_append] at hfuel
    have hpos := length_value_pos v (ord.get i == -1) a
    cases fuel with
    | zero => omega
    | succ fuel =>
      have hrest := ih (forall_mem_cons.mp hnames).2 hcanon.2 (i + 1) fuel hend (by omega)
      simp only [elements, bytes_append, bits_append, append_assoc]
      refine consumes_element v ord a hcanon.1 rest (by omega) (fun d s => ?_) hrest
      rw [append_assoc]
      exact afterString_elements v ord d (i + 1) rest s

/-- A key the reader can take back: only the canonical NaN, type bits within their buffer,
fewer elements than an ordering has positions, and an ascending position after the last. -/
structure StoredKey (v : Version) (ord : KeyOrdering) (k : IndexKey) : Prop where
  canonical : canonicalFields k.obj
  bits_fit : (elements v ord 0 k.obj).bits.length ≤ 8 * kMaxBytesNeeded
  positions : k.obj.length < 32
  ascending_after : ord.get k.obj.length = 1

end Keys
end MongoServer.KeyString
