import MongoServer.KeyString.Decode
import MongoServer.KeyString.Order

/-!
The contracts of the elementary readers: each consumes exactly what the matching writer
appended, bytes and type bits alike.
-/
namespace MongoServer.KeyString
open ByteOrder ByteReading Binary64 List

def At (r : Reader) (bytes : List UInt8) (bits : List Bool) : Prop :=
  r.remaining = bytes ∧ r.typeBits.Holds r.curBit bits

section Primitives
variable {T : List UInt8 → Prop} (inverted : Bool) (str : List UInt8)

theorem consumes_readBit (bit : Bool) : Consumes At T readBit [] [bit] bit := by
  intro r s bs _ hat
  obtain ⟨hbytes, hholds⟩ := hat
  unfold TypeBits.Holds at hholds
  cases hz : r.typeBits.isAllZeros with
  | true =>
    rw [if_pos hz] at hholds
    have hbit : bit = false := hholds bit (by simp)
    refine ⟨r, by simp [readBit, hz, hbit], hbytes, ?_⟩
    rw [TypeBits.Holds, if_pos hz]
    intro b hb
    exact hholds b (by simp [hb])
  | false =>
    rw [if_neg (by simp [hz])] at hholds
    have hfirst := hholds 0 (by simp)
    rw [Nat.add_zero] at hfirst
    refine ⟨{ r with curBit := r.curBit + 1 }, ?_, hbytes, ?_⟩
    · simp [readBit, hz, hfirst]
    · rw [TypeBits.Holds, if_neg (by simp [hz])]
      intro i hi
      have hnext := hholds (i + 1) (by simpa using hi)
      have hidx : r.curBit + 1 + i = r.curBit + (i + 1) := by omega
      rw [hidx, hnext]
      simp

theorem consumes_readByte (b : UInt8) :
    Consumes At T (readByte inverted) (flipIf inverted [b]) [] b := by
  intro r s bs _ hat
  obtain ⟨hbytes, hholds⟩ := hat
  refine ⟨{ r with remaining := s }, ?_, rfl, hholds⟩
  cases inverted <;> simp [readByte, hbytes, flipIf]

theorem consumes_skip (p : List UInt8) : Consumes At T (skip p.length) p [] p := by
  intro r s bs _ hat
  obtain ⟨hbytes, hholds⟩ := hat
  refine ⟨{ r with remaining := s }, ?_, rfl, hholds⟩
  simp [skip, hbytes]

theorem consumes_readBytes {k : ℕ} (p : List UInt8) (h : p.length = k) :
    Consumes At T (readBytes k inverted) (flipIf inverted p) [] p := by
  have hskip := consumes_skip (T := T) (flipIf inverted p)
  rw [length_flipIf, h] at hskip
  apply hskip.bind_return
  rw [flipIf_flipIf]

theorem consumes_readBigEndian {k n : ℕ} (h : n < 256 ^ k) :
    Consumes At T (readBigEndian k inverted) (flipIf inverted (beBytes k n)) [] n := by
  apply (consumes_readBytes inverted (beBytes k n) (length_beBytes k n)).bind_return
  rw [ofBE_beBytes_of_lt h]

theorem splitTerminator_flipIf {p : List UInt8} (h : 0 ∉ p) (s : List UInt8) :
    splitTerminator (if inverted then 0xff else 0x00) (flipIf inverted (p ++ [0]) ++ s) =
      some (flipIf inverted p, s) := by
  induction p with
  | nil => cases inverted <;> rfl
  | cons b p ih =>
    have hb : b ≠ 0 := fun h0 => h (by simp [h0])
    have hp := ih (fun hm => h (mem_cons_of_mem b hm))
    rw [cons_append, flipIf_cons_eq, flipIf_cons_eq inverted b p, append_assoc]
    cases inverted with
    | false =>
      simp only [flipIf_false, singleton_append, splitTerminator, Bool.false_eq_true,
        ↓reduceIte] at hp ⊢
      rw [if_neg hb, hp]
      rfl
    | true =>
      have hne : ~~~b ≠ 0xff := by
        intro he
        have hback := congrArg (fun x => ~~~x) he
        simp only [uint8_not_not] at hback
        exact hb hback
      simp only [flipIf, ↓reduceIte, map_cons, map_nil, singleton_append, splitTerminator] at hp ⊢
      rw [if_neg hne, hp]
      rfl

theorem consumes_readCString {p : List UInt8} (h : 0 ∉ p) :
    Consumes At T (readCString inverted) (flipIf inverted (p ++ [0])) [] p := by
  intro r s bs _ hat
  obtain ⟨hbytes, hholds⟩ := hat
  refine ⟨{ r with remaining := s }, ?_, rfl, hholds⟩
  simp only [readCString, hbytes, splitTerminator_flipIf inverted h, Option.map_some, flipIf_flipIf]

theorem consumes_readName (name : CString) :
    Consumes At T (readName inverted) (flipIf inverted (name.bytes ++ [0])) [] name := by
  apply (consumes_readCString inverted name.noNul).bind_return
  rw [dif_pos name.noNul]

theorem escapeNuls_split :
    (0 ∉ str ∧ escapeNuls str = str ++ [0]) ∨ ∃ part rest, 0 ∉ part ∧ str = part ++ 0 :: rest ∧
        escapeNuls str = part ++ [0] ++ 0xff :: escapeNuls rest := by
  induction str with
  | nil => exact .inl ⟨by simp, rfl⟩
  | cons b str ih =>
    by_cases hb : b = 0
    · exact .inr ⟨[], str, by simp, by simp [hb], by simp [escapeNuls, hb]⟩
    · rcases ih with ⟨hnot, he⟩ | ⟨part, rest, hnot, hstr, he⟩
      · exact .inl ⟨by simpa [Ne.symm hb] using hnot, by simp [escapeNuls, hb, he]⟩
      · refine .inr ⟨b :: part, rest, by simpa [Ne.symm hb] using hnot, by simp [hstr], ?_⟩
        simp [escapeNuls, hb, he]

theorem peek_of_at {r : Reader} {b : UInt8} {s : List UInt8} {bits : List Bool}
    (h : At r (b :: s) bits) : peek r = some (b, r) := by
  simp [peek, h.1]

theorem consumes_readCStringWithNulsLoop (fuel : ℕ) (str : List UInt8) (hfuel : str.length < fuel) :
    Consumes At (AfterString inverted) (readCStringWithNulsLoop inverted fuel)
      (flipIf inverted (escapeNuls str)) [] str := by
  induction fuel generalizing str with
  | zero => omega
  | succ fuel ih =>
    intro r s bs hs hat
    rcases escapeNuls_split str with ⟨hnot, he⟩ | ⟨part, rest, hnot, hstr, he⟩
    · rw [he] at hat
      obtain ⟨r', hrun, hat'⟩ := consumes_readCString (T := fun _ => True) inverted hnot r s bs
        trivial hat
      obtain ⟨c, t, rfl, hc⟩ := hs
      refine ⟨r', ?_, hat'⟩
      have hpeek : peek r' = some (if inverted then ~~~c else c, r') := by
        rw [flipIf_cons, flipIf_nil] at hat'
        exact peek_of_at hat'
      have hne : (if inverted then ~~~c else c) ≠ (if inverted then 0x00 else 0xff) := by
        cases inverted with
        | false => exact hc
        | true =>
          intro hz
          apply hc
          have hback := congrArg (fun x => ~~~x) hz
          simp only [↓reduceIte, uint8_not_not] at hback
          exact hback
      simp only [readCStringWithNulsLoop, bind, StateT.bind, hrun, hpeek, Option.bind_some, hne,
        ↓reduceIte]
      rfl
    · -- the byte after the terminator marks an embedded NUL
      rw [he, flipIf_append, flipIf_cons_eq inverted 0xff, append_assoc, append_assoc] at hat
      obtain ⟨r', hrun, hat'⟩ := consumes_readCString (T := fun _ => True) inverted hnot r _ bs
        trivial hat
      have hpeek : peek r' = some (if inverted then 0x00 else 0xff, r') := by
        cases inverted <;> exact peek_of_at hat'
      obtain ⟨r₂, hskip, hat₂⟩ := consumes_skip (T := fun _ => True) (flipIf inverted [0xff]) r' _
        bs trivial hat'
      rw [length_flipIf, length_singleton] at hskip
      have hlen : rest.length < fuel := by
        rw [hstr, length_append, length_cons] at hfuel
        omega
      obtain ⟨r₃, hmore, hat₃⟩ := ih rest hlen r₂ s bs hs hat₂
      refine ⟨r₃, ?_, hat₃⟩
      simp only [readCStringWithNulsLoop, bind, StateT.bind, hrun, hpeek, hskip, hmore,
        Option.bind_some, ↓reduceIte, hstr]
      rfl

theorem length_le_escapeNuls : str.length < (escapeNuls str).length := by
  induction str with
  | nil => simp [escapeNuls]
  | cons b str ih =>
    by_cases hb : b = 0
    · simp only [escapeNuls, hb, ↓reduceIte, length_cons]
      omega
    · simp only [escapeNuls, hb, ↓reduceIte, length_cons]
      omega

theorem consumes_readCStringWithNuls :
    Consumes At (AfterString inverted) (readCStringWithNuls inverted)
      (flipIf inverted (escapeNuls str)) [] str := by
  intro r s bs hs hat
  have hlen := length_le_escapeNuls str
  have hrem : str.length < r.remaining.length := by
    rw [hat.1, length_append, length_flipIf]
    omega
  exact consumes_readCStringWithNulsLoop inverted _ str hrem r s bs hs hat

end Primitives

section Leaves
variable {T : List UInt8 → Prop} (inverted : Bool)

def OriginalType.bits : OriginalType → List Bool
  | .kInt => [false, false]
  | .kLong => [false, true]
  | .kDouble => [true, false]
  | .kDecimal => [true, true]

theorem consumes_readNumeric (t : OriginalType) : Consumes At T readNumeric [] t.bits t := by
  have hread : ∀ hi lo : Bool, Consumes At T readNumeric [] [hi, lo] (.ofBits hi lo) := by
    intro hi lo
    apply (consumes_readBit hi).bind_any (b := [hi]) (c := [lo])
    exact (consumes_readBit lo).bind_return rfl
  cases t with
  | kInt => exact hread false false
  | kLong => exact hread false true
  | kDouble => exact hread true false
  | kDecimal => exact hread true true

theorem consumes_readOID (o : OID) :
    Consumes At T (readOID inverted) (flipIf inverted o.bytes) [] o := by
  apply (consumes_readBytes inverted o.bytes o.length_eq).bind_return
  rw [dif_pos o.length_eq]

theorem consumes_readStringLike (symbol : Bool) (str : List UInt8) :
    Consumes At (AfterString inverted) (readStringLike inverted)
      (flipIf inverted (escapeNuls str)) [symbol] (if symbol then .symbol str else .string str) := by
  apply (consumes_readBit symbol).bind_any (b := [symbol]) (c := [])
  exact (consumes_readCStringWithNuls inverted str).bind_return rfl

theorem consumes_readDataSize {n : ℕ} (h : n < 256 ^ 4) :
    Consumes At T (readDataSize inverted) (if n < 0xff then appendByte (UInt8.ofNat n) inverted
        else appendByte 0xff inverted ++ appendBytes (beBytes 4 n) inverted).bytes [] n := by
  by_cases hn : n < 0xff
  · rw [if_pos hn]
    apply (consumes_readByte inverted (UInt8.ofNat n)).bind_return
    have hto : (UInt8.ofNat n).toNat = n := toNat_byte (by omega)
    have hne : UInt8.ofNat n ≠ 0xff := by
      intro he
      rw [he] at hto
      exact absurd hto.symm hn.ne
    rw [if_neg hne, hto]
  · rw [if_neg hn]
    apply (consumes_readByte inverted 0xff).bind_any (b := []) (c := [])
    rw [if_pos rfl]
    exact consumes_readBigEndian inverted h

theorem consumes_readBinData (data : BSONBinData) :
    ∃ bytes, (appendBinData data inverted).bytes = flipIf inverted [CType.kBinData] ++ bytes ∧
      Consumes At T (readBinData inverted) bytes [] data := by
  have hsize := data.size_lt
  refine ⟨_, by simp only [appendBinData, bytes_append, append_assoc]; rfl, ?_⟩
  apply (consumes_readDataSize inverted (show data.data.length < 256 ^ 4 by omega)).bind_any
    (b := []) (c := [])
  apply (consumes_readByte inverted data.type).bind_any (b := []) (c := [])
  apply (consumes_readBytes inverted data.data rfl).bind_return
  rw [dif_pos hsize]

theorem consumes_readDBRef (ref : BSONDBRef) :
    Consumes At T (readDBRef inverted) (flipIf inverted (beBytes 4 ref.ns.bytes.length) ++
        (flipIf inverted ref.ns.bytes ++ flipIf inverted ref.oid.bytes)) [] ref := by
  have hsize := ref.size_lt
  apply (consumes_readBigEndian inverted (show ref.ns.bytes.length < 256 ^ 4 by omega)).bind_any
    (b := []) (c := [])
  apply (consumes_readBytes inverted ref.ns.bytes rfl).bind_any (b := []) (c := [])
  apply (consumes_readOID inverted ref.oid).bind_return
  rw [dif_pos ⟨ref.ns.noNul, hsize⟩]

end Leaves

end MongoServer.KeyString
