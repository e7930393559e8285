import MongoServer.Ranges.Tiling
import MongoServer.Sharding.ChunkOperations
import MongoServer.Transition.Runs

/-!
The chunks of a collection stay a partition of its key space, with one epoch and versions that
grow, whatever splits, merges and migrations are asked for. Updates and deletions go by id
while the checks go by value, so the chunks that a merge deletes must have the ids that its
boundaries give.
-/
namespace MongoServer
open Ranges Transition ChunkType ChunkVersion List

variable {text : Rendering} {ns : String} {space : ChunkRange} {docs docs' rest : List ChunkDoc}
  {c d o : ChunkDoc} {chunk : ChunkRange} {ops : List ChunkOp} {version : ChunkVersion}
    {chunks : List ChunkRange} {shard : String} {epoch : OID} {ns' : String} (doc : ChunkDoc)
    {preConds : List PreCondition} {result : Except Failure Unit} {control : Option ChunkRange}

def ChunkDoc.range : ChunkRange := ⟨doc.min, doc.max⟩

/-- The documents of one collection, with ids made from their lower bounds, partition the key
space; they have one epoch and distinct versions. -/
structure Partitioned (text : Rendering) (ns : String) (space : ChunkRange)
    (docs : List ChunkDoc) : Prop where
  nss : ∀ doc ∈ docs, doc.ns = ns
  id : ∀ doc ∈ docs, doc.id = genID text ns doc.min
  nonempty : ∀ doc ∈ docs, woCompareNested doc.min doc.max < 0
  partition : ∀ key : BSONObj, (docs.countP fun doc => doc.range.containsKey key) =
    if space.containsKey key then 1 else 0
  epoch : ∀ doc ∈ docs, ∀ doc' ∈ docs, doc.version.epoch = doc'.version.epoch
  versions : (docs.map fun doc => doc.version.combined).Nodup

inductive ChunkCall where
  | split (ns : String) (requestEpoch : OID) (range : ChunkRange) (splitPoints : List BSONObj)
      (shardName : String)
  | merge (ns : String) (requestEpoch : OID) (chunkBoundaries : List BSONObj) (shardName : String)
  | migrate (ns : String) (migratedChunk : ChunkRange) (controlChunk : Option ChunkRange)
      (collectionEpoch : OID) (fromShard toShard : String)

namespace ChunkCall

variable (text)

variable (docs)

def commit : ChunkCall → Except Failure Unit × List ChunkDoc
  | .split ns requestEpoch range splitPoints shardName =>
      commitChunkSplit text docs ns requestEpoch range splitPoints shardName
  | .merge ns requestEpoch chunkBoundaries shardName =>
      commitChunkMerge text docs ns requestEpoch chunkBoundaries shardName
  | .migrate ns migratedChunk controlChunk collectionEpoch fromShard toShard =>
      commitChunkMigration text docs ns migratedChunk controlChunk collectionEpoch fromShard toShard

def step (call : ChunkCall) : Option (List ChunkDoc) :=
  some (call.commit text docs).2

def nss : ChunkCall → String
  | .split ns _ _ _ _ => ns
  | .merge ns _ _ _ => ns
  | .migrate ns _ _ _ _ _ => ns

def keys : ChunkCall → List BSONObj
  | .split _ _ range splitPoints _ => range.min :: splitPoints
  | .merge _ _ chunkBoundaries _ => chunkBoundaries
  | .migrate _ migratedChunk controlChunk _ _ _ =>
      migratedChunk.min :: controlChunk.toList.map ChunkRange.min

/-- Lower bounds that differ have different ids. -/
def DistinctIds (call : ChunkCall) : Prop :=
  ∀ a ∈ docs.map ChunkDoc.min ++ call.keys, ∀ b ∈ docs.map ChunkDoc.min ++ call.keys,
    genID text call.nss a = genID text call.nss b → woCompareNested a b = 0

/-- Merges have three boundaries, and the control chunk is not the migrated one. -/
def WellFormed : ChunkCall → Prop
  | .merge _ _ chunkBoundaries _ => 3 ≤ chunkBoundaries.length
  | .migrate _ migratedChunk (some controlChunk) _ _ _ =>
      woCompareNested controlChunk.min migratedChunk.min ≠ 0 ∨
        woCompareNested controlChunk.max migratedChunk.max ≠ 0
  | _ => True

/-- What is assumed of a call. -/
def Assumed (call : ChunkCall) : Prop :=
  call.DistinctIds text docs ∧ call.WellFormed

/-- The chunks that start at an inner boundary of a merge have the id of the boundary. -/
def Identified : ChunkCall → Prop
  | .merge ns _ chunkBoundaries _ => ∀ boundary ∈ chunkBoundaries.tail.dropLast, ∀ doc ∈ docs,
      woCompareNested doc.min boundary = 0 → doc.id = genID text ns boundary
  | _ => True

end ChunkCall

/-- Keys with the same id are the same. -/
def Separated (text : Rendering) (ns : String) (keys : List BSONObj) : Prop :=
  ∀ a ∈ keys, ∀ b ∈ keys, genID text ns a = genID text ns b → a.rank = b.rank

theorem Separated.mono {keys keys' : List BSONObj} (h : Separated text ns keys)
    (hsub : keys' ⊆ keys) : Separated text ns keys' :=
  fun a ha b hb => h a (hsub ha) b (hsub hb)

theorem ChunkCall.Assumed.separated {call : ChunkCall} (h : call.Assumed text docs) :
    Separated text call.nss (docs.map ChunkDoc.min ++ call.keys) :=
  fun a ha b hb heq => woCompareNested_eq_iff.mp (h.1 a ha b hb heq)

section Keys

def keyRanks : Set Rank := Set.range BSONObj.rank

def ChunkDoc.lo : Rank := doc.min.rank

def ChunkDoc.hi : Rank := doc.max.rank

def ChunkRange.lo (range : ChunkRange) : Rank := range.min.rank

def ChunkRange.hi (range : ChunkRange) : Rank := range.max.rank

theorem partition_iff_tiles : (∀ key : BSONObj,
      (docs.countP fun doc => doc.range.containsKey key) = if space.containsKey key then 1 else 0) ↔
    Tiles ChunkDoc.lo ChunkDoc.hi keyRanks space.min.rank space.max.rank docs := by
  have hcount : ∀ key : BSONObj, (docs.countP fun doc => doc.range.containsKey key) =
      countAt ChunkDoc.lo ChunkDoc.hi key.rank docs := by
    intro key
    unfold countAt
    congr 1
    funext doc
    rw [Bool.eq_iff_iff, containsKey_iff, decide_eq_true_iff]
    rfl
  constructor
  · rintro h _ ⟨key, rfl⟩
    rw [← hcount, h key]
    exact if_congr containsKey_iff rfl rfl
  · intro h key
    rw [hcount, h key.rank ⟨key, rfl⟩]
    exact if_congr containsKey_iff.symm rfl rfl

section
variable (h : Partitioned text ns space docs)
include h

namespace Partitioned

theorem tiles : Tiles ChunkDoc.lo ChunkDoc.hi keyRanks space.min.rank space.max.rank docs :=
  partition_iff_tiles.mp h.partition

theorem lo_lt_hi (hd : d ∈ docs) : d.lo < d.hi :=
  woCompareNested_lt_iff.mp (h.nonempty d hd)

theorem eq_of_key (hc : c ∈ docs) (hd : d ∈ docs) (hlo : c.lo ≤ d.lo) (hhi : d.lo < c.hi) : c = d :=
  h.tiles.eq_of_mem ⟨d.min, rfl⟩ hc hd ⟨hlo, hhi⟩ ⟨le_refl _, h.lo_lt_hi hd⟩

theorem eq_of_lo (hc : c ∈ docs) (hd : d ∈ docs) (hlo : c.lo = d.lo) : c = d :=
  h.eq_of_key hc hd hlo.le (hlo ▸ h.lo_lt_hi hc)

theorem nodup : docs.Nodup :=
  List.Nodup.of_map _ h.versions

end Partitioned

end

end Keys

/-- What a call may do: it keeps the partition, a failure changes nothing, and what is written
has a version above all. -/
structure Committed (text : Rendering) (ns : String) (space : ChunkRange) (docs : List ChunkDoc)
    (result : Except Failure Unit × List ChunkDoc) : Prop where
  partitioned : Partitioned text ns space result.2
  failed : ∀ failure, result.1 = .error failure → result.2 = docs
  above : ∀ doc ∈ result.2, doc ∈ docs ∨ ∀ d ∈ docs, d.version.combined < doc.version.combined

theorem Partitioned.unchanged (h : Partitioned text ns space docs) (result : Except Failure Unit) :
    Committed text ns space docs (result, docs) where
  partitioned := h
  failed _ _ := rfl
  above _ hdoc := .inl hdoc

section Operations

theorem findNewest_spec {query : ChunkDoc → Bool} (h : findNewest query docs = some d) :
    d ∈ docs ∧ query d = true ∧
      ∀ doc ∈ docs, query doc = true → doc.version.combined.toNat ≤ d.version.combined.toNat := by
  have hmem := mem_filter.mp (argmax_mem h)
  refine ⟨hmem.1, hmem.2, fun doc hdoc hquery => ?_⟩
  exact le_of_mem_argmax (f := fun doc : ChunkDoc => doc.version.combined.toNat)
    (mem_filter.mpr ⟨hdoc, hquery⟩) h

/-- The id that an operation is about. -/
def ChunkOp.id : ChunkOp → String
  | .update o => o.id
  | .delete id => id

def ChunkOp.written : ChunkOp → Option ChunkDoc
  | .update o => some o
  | .delete _ => none

theorem applyOperation_spec {op : ChunkOp} (happly : applyOperation docs op = .ok docs') :
    docs' = op.written.toList ++ docs.filter (fun doc => doc.id ≠ op.id) ∧
      ∀ o, op = .update o → ∀ doc ∈ docs, doc.id ≠ op.id → doc.duplicates o = false := by
  cases op with
  | update o =>
    unfold applyOperation at happly
    dsimp only at happly
    split_ifs at happly with hdup
    cases happly
    refine ⟨rfl, ?_⟩
    rintro _ ⟨⟩ doc hdoc hne
    by_contra hduplicates
    exact hdup (any_eq_true.mpr ⟨doc, mem_filter.mpr ⟨hdoc, decide_eq_true hne⟩,
      Bool.eq_true_of_not_eq_false hduplicates⟩)
  | delete id =>
    cases happly
    exact ⟨rfl, by simp⟩

theorem foldlM_applyOperation (hnodup : (ops.map ChunkOp.id).Nodup)
    (happly : ops.foldlM applyOperation docs = .ok docs') :
    docs'.Perm (ops.filterMap ChunkOp.written ++
      docs.filter fun doc => doc.id ∉ ops.map ChunkOp.id) ∧
    ∀ o, .update o ∈ ops → ∀ doc ∈ docs, doc.id ∉ ops.map ChunkOp.id →
      doc.duplicates o = false := by
  induction ops generalizing docs with
  | nil =>
    cases happly
    simp
  | cons op ops ih =>
    rw [foldlM_cons] at happly
    obtain ⟨docs₁, hfirst, happly⟩ := bind_eq_ok.mp happly
    obtain ⟨rfl, hdup⟩ := applyOperation_spec hfirst
    obtain ⟨hnotMem, hnodup⟩ := nodup_cons.mp hnodup
    obtain ⟨hperm, hdups⟩ := ih hnodup happly
    constructor
    · have hkept : op.written.toList.filter (fun doc => doc.id ∉ ops.map ChunkOp.id) =
          op.written.toList := by
        cases op with
        | update o => exact filter_cons_of_pos (decide_eq_true hnotMem)
        | delete id => rfl
      have hwritten : (op :: ops).filterMap ChunkOp.written =
          op.written.toList ++ ops.filterMap ChunkOp.written := by cases op <;> rfl
      rw [filter_append, hkept, filter_filter] at hperm
      rw [hwritten, append_assoc]
      refine hperm.trans ((perm_append_comm_assoc _ _ _).trans (.of_eq ?_))
      congr 3
      funext doc
      simp [not_or, Bool.and_comm]
    · intro o ho doc hdoc hid
      rw [map_cons, mem_cons, not_or] at hid
      rcases mem_cons.mp ho with heq | ho
      · exact hdup o heq.symm doc hdoc hid.1
      · exact hdups o ho doc
          (mem_append_right _ (mem_filter.mpr ⟨hdoc, decide_eq_true hid.1⟩)) hid.2

section
variable (keys : List BSONObj) (ranges : List ChunkRange) (h : Partitioned text ns space docs)
  (hkeys : ops.map ChunkOp.id = keys.map (genID text ns))
  (hdistinct : (keys.map BSONObj.rank).Nodup)
  (hids : Separated text ns (docs.map ChunkDoc.min ++ keys))
  (happly : ops.foldlM applyOperation docs = .ok docs')
  (hranges : ∀ range ∈ ranges, ∃ c ∈ docs, c.lo = range.lo ∧ c.hi = range.hi)
  (hnodup : (ranges.map ChunkRange.lo).Nodup)
  (hcover : ∀ key ∈ keys, ∃ range ∈ ranges, range.lo ≤ key.rank ∧ key.rank < range.hi)
  (hfound : ∀ range ∈ ranges, (∀ d ∈ docs, d.lo = range.lo → d.id ∈ keys.map (genID text ns)) ∨
      ∃ o, .update o ∈ ops ∧ o.ns = ns ∧ range.lo = o.lo)
include h hkeys hdistinct hids happly hranges hnodup hcover hfound

/-- Operations on keys of some ranges replace the chunks of the ranges by what is written. -/
theorem Partitioned.perm_of_ops [Nonempty ChunkDoc] : ∃ old rest, docs.Perm (old ++ rest) ∧
    docs'.Perm (ops.filterMap ChunkOp.written ++ rest) ∧ ∀ k,
      countAt ChunkDoc.lo ChunkDoc.hi k old = countAt ChunkRange.lo ChunkRange.hi k ranges := by
  have hnodupIds : (keys.map (genID text ns)).Nodup :=
    (Nodup.of_map _ hdistinct).map_on fun a ha b hb heq =>
      inj_on_of_nodup_map hdistinct ha hb
        (hids a (mem_append_right _ ha) b (mem_append_right _ hb) heq)
  obtain ⟨hperm, hdup⟩ := foldlM_applyOperation (hkeys ▸ hnodupIds) happly
  rw [hkeys] at hperm hdup
  choose! chunk hchunk using hranges
  have hmem : ∀ doc ∈ docs, doc.id ∈ keys.map (genID text ns) ↔ doc ∈ ranges.map chunk := by
    intro doc hdoc
    constructor
    · intro hid
      obtain ⟨key, hkey, heq⟩ := mem_map.mp hid
      rw [h.id doc hdoc] at heq
      have hlo : key.rank = doc.lo := hids key (mem_append_right _ hkey) doc.min
        (mem_append_left _ (mem_map_of_mem hdoc)) heq
      obtain ⟨range, hrange, hle, hlt⟩ := hcover key hkey
      obtain ⟨hc, hstart, hend⟩ := hchunk range hrange
      rw [hlo, ← hstart] at hle
      rw [hlo, ← hend] at hlt
      exact mem_map.mpr ⟨range, hrange, h.eq_of_key hc hdoc hle hlt⟩
    · intro hd
      obtain ⟨range, hrange, rfl⟩ := mem_map.mp hd
      obtain ⟨-, hlo, -⟩ := hchunk range hrange
      rcases hfound range hrange with hid | ⟨o, ho, hns, heq⟩
      · exact hid _ hdoc hlo
      · by_contra hid
        have hnone := hdup o ho _ hdoc hid
        rw [ChunkDoc.duplicates, decide_eq_false_iff_not] at hnone
        exact hnone ⟨(h.nss _ hdoc).trans hns.symm,
          .inl (woCompareNested_eq_iff.mpr (hlo.trans heq))⟩
  have hold : (ranges.map chunk).Perm
      (docs.filter fun doc => doc.id ∈ keys.map (genID text ns)) := by
    have hlos : ranges.map (ChunkDoc.lo ∘ chunk) = ranges.map ChunkRange.lo :=
      map_congr_left fun range hrange => (hchunk range hrange).2.1
    rw [← hlos, ← map_map] at hnodup
    refine (perm_ext_iff_of_nodup (Nodup.of_map _ hnodup) (h.nodup.filter _)).mpr fun d => ?_
    rw [mem_filter, decide_eq_true_iff]
    constructor
    · intro hd
      obtain ⟨range, hrange, rfl⟩ := mem_map.mp hd
      have hc := (hchunk range hrange).1
      exact ⟨hc, (hmem _ hc).mpr hd⟩
    · exact fun hd => (hmem d hd.1).mp hd.2
  have hsplit := filter_append_perm (fun doc => doc.id ∈ keys.map (genID text ns)) docs
  simp only [← decide_not] at hsplit
  exact ⟨_, _, hsplit.symm.trans (hold.symm.append_right _), hperm,
    countAt_map fun range hrange => (hchunk range hrange).2⟩

/-- The operations of a call replace chunks by others that hold the same keys and have versions
above all. -/
theorem Partitioned.replace (new : List ChunkDoc) (hc : c ∈ docs)
    (hwritten : ops.filterMap ChunkOp.written = new)
    (hdocs : ∀ doc ∈ new, doc.ns = ns ∧ doc.id = genID text ns doc.min ∧
      doc.lo < doc.hi ∧ doc.version.epoch = c.version.epoch)
    (hsame : ∀ k, countAt ChunkDoc.lo ChunkDoc.hi k new =
      countAt ChunkRange.lo ChunkRange.hi k ranges)
    (hversionsNew : (new.map fun doc => doc.version.combined).Nodup)
    (habove : ∀ doc ∈ new, ∀ d ∈ docs, d.version.combined < doc.version.combined) :
    Committed text ns space docs (.ok (), docs') ∧ new ⊆ docs' := by
  have : Nonempty ChunkDoc := ⟨c⟩
  obtain ⟨old, rest, hold, hnew, hcount⟩ :=
    h.perm_of_ops keys ranges hkeys hdistinct hids happly hranges hnodup hcover hfound
  rw [hwritten] at hnew
  have hmem : ∀ doc ∈ docs', doc ∈ new ∨ doc ∈ docs := by
    intro doc hdoc
    rcases mem_append.mp (hnew.mem_iff.mp hdoc) with hdoc | hdoc
    · exact .inl hdoc
    · exact .inr (hold.mem_iff.mpr (mem_append_right _ hdoc))
  have hepoch : ∀ doc ∈ docs', doc.version.epoch = c.version.epoch := by
    intro doc hdoc
    rcases hmem doc hdoc with hdoc | hdoc
    · exact (hdocs doc hdoc).2.2.2
    · exact h.epoch doc hdoc c hc
  have hversions := h.versions
  rw [(hold.map _).nodup_iff, map_append, nodup_append] at hversions
  refine ⟨⟨?_, by simp, fun doc hdoc => (hmem doc hdoc).symm.imp_right (habove doc)⟩,
    fun doc hdoc => hnew.mem_iff.mpr (mem_append_left _ hdoc)⟩
  constructor
  · intro doc hdoc
    exact (hmem doc hdoc).elim (fun hdoc => (hdocs doc hdoc).1) (h.nss doc)
  · intro doc hdoc
    exact (hmem doc hdoc).elim (fun hdoc => (hdocs doc hdoc).2.1) (h.id doc)
  · intro doc hdoc
    exact (hmem doc hdoc).elim
      (fun hdoc => woCompareNested_lt_iff.mpr (hdocs doc hdoc).2.2.1) (h.nonempty doc)
  · exact partition_iff_tiles.mpr (h.tiles.replace hold hnew fun k =>
      (hsame k).trans (hcount k).symm)
  · intro doc hdoc doc' hdoc'
    exact (hepoch doc hdoc).trans (hepoch doc' hdoc').symm
  · rw [(hnew.map _).nodup_iff, map_append, nodup_append]
    refine ⟨hversionsNew, hversions.2.1, fun v hv w hw => ?_⟩
    obtain ⟨doc, hdoc, rfl⟩ := mem_map.mp hv
    obtain ⟨d, hd, rfl⟩ := mem_map.mp hw
    have hlt := habove doc hdoc d (hold.mem_iff.mpr (mem_append_right _ hd))
    exact (UInt64.ne_of_lt hlt).symm

end

theorem applyOps_cases (h : applyOps ops preConds docs = (result, docs')) :
    (result = .ok () ∧ (∀ preCond ∈ preConds, preCond.check docs = true) ∧
      ops.foldlM applyOperation docs = .ok docs') ∨
    (∃ failure, result = .error failure) ∧ docs' = docs := by
  unfold applyOps at h
  split_ifs at h with hpre
  · cases happly : ops.foldlM applyOperation docs with
    | ok docs₁ =>
      rw [happly] at h
      obtain ⟨rfl, rfl⟩ := Prod.mk.inj h
      exact .inl ⟨rfl, all_eq_true.mp hpre, rfl⟩
    | error failure =>
      rw [happly] at h
      obtain ⟨rfl, rfl⟩ := Prod.mk.inj h
      exact .inr ⟨⟨failure, rfl⟩, rfl⟩
  · obtain ⟨rfl, rfl⟩ := Prod.mk.inj h
    exact .inr ⟨⟨_, rfl⟩, rfl⟩

theorem hasBounds_spec {min max : BSONObj} (h : c.hasBounds ns min max = true) :
    c.lo = min.rank ∧ c.hi = max.rank := by
  unfold ChunkDoc.hasBounds at h
  rw [decide_eq_true_iff] at h
  exact ⟨woCompareNested_eq_iff.mp h.2.1, woCompareNested_eq_iff.mp h.2.2⟩

theorem PreCondition.check_spec {preCond : PreCondition} (h : preCond.check docs = true) :
    ∃ c ∈ docs, c.lo = preCond.min.rank ∧ c.hi = preCond.max.rank := by
  unfold PreCondition.check at h
  cases hfind : findNewest (ChunkDoc.hasBounds preCond.ns preCond.min preCond.max) docs with
  | none => simp [hfind] at h
  | some c =>
    obtain ⟨hc, hbounds, -⟩ := findNewest_spec hfind
    exact ⟨c, hc, hasBounds_spec hbounds⟩

theorem incMinor_toNat {v : ChunkVersion} (h : v.incMinor.isSet = true) :
    v.incMinor.combined.toNat = v.combined.toNat + 1 := by
  unfold isSet incMinor at h
  rw [decide_eq_true_iff, UInt64.lt_iff_toNat_lt, UInt64.toNat_add] at h
  unfold incMinor
  rw [UInt64.toNat_add]
  have hone : (1 : UInt64).toNat = 1 := rfl
  have hzero : (0 : UInt64).toNat = 0 := rfl
  have hlt := v.combined.toNat_lt
  omega

/-- A failure counts as a success only if the last version is there already. -/
theorem Partitioned.applied (h : Partitioned text ns space docs) {last : ChunkVersion}
    (hfresh : ∀ doc ∈ docs, doc.version.combined.toNat < last.combined.toNat)
    (hok : ∀ docs', (∀ preCond ∈ preConds, preCond.check docs = true) →
      ops.foldlM applyOperation docs = .ok docs' → Committed text ns space docs (.ok (), docs')) :
    Committed text ns space docs (applyChunkOpsDeprecated text ops preConds ns' last docs) := by
  unfold applyChunkOpsDeprecated
  cases hops : applyOps ops preConds docs with
  | mk result docs₁ =>
    rcases applyOps_cases hops with ⟨rfl, hpre, happly⟩ | ⟨⟨failure, rfl⟩, rfl⟩
    · exact hok docs₁ hpre happly
    · cases failure with
      | invariant => exact h.unchanged _
      | status status =>
        have hnone : docs₁.find? (fun doc => doc.ns = ns' ∧ doc.version = last) = none := by
          refine List.find?_eq_none.mpr fun doc hdoc hfound => ?_
          rw [decide_eq_true_iff] at hfound
          exact (hfresh doc hdoc).ne (by rw [hfound.2])
        dsimp only
        rw [hnone]
        exact h.unchanged _

end Operations

section Split

variable {range : ChunkRange}

theorem checkSplitPoint_spec {startKey endKey : BSONObj}
    (h : checkSplitPoint text range startKey endKey = .ok ()) : startKey.rank < endKey.rank := by
  unfold checkSplitPoint at h
  split_ifs at h with hcontained hbelow hequal
  rw [woCompareNested_lt_iff] at hbelow
  rw [woCompareNested_eq_iff] at hequal
  exact lt_of_le_of_ne (not_lt.mp hbelow) (Ne.symm hequal)

theorem newChunks_spec {shardName : String} {bounds : List BSONObj}
    {startKey : BSONObj} {version last : ChunkVersion} {chunks : List ChunkDoc}
    (h : newChunks text ns range shardName bounds startKey version = .ok (chunks, last)) :
    Consecutive ChunkDoc.lo ChunkDoc.hi startKey.rank chunks (bounds.getLast?.getD startKey).rank ∧
    (∀ doc ∈ chunks, doc.ns = ns ∧ doc.id = genID text ns doc.min ∧ doc.lo < doc.hi ∧
      doc.version.epoch = version.epoch) ∧
    chunks.map ChunkDoc.min = (startKey :: bounds).dropLast ∧
    last.combined.toNat = version.combined.toNat + chunks.length ∧
    (∀ doc ∈ chunks, version.combined.toNat < doc.version.combined.toNat) ∧
    chunks.Pairwise fun a b => a.version.combined.toNat < b.version.combined.toNat := by
  induction bounds generalizing startKey version chunks with
  | nil =>
    obtain ⟨rfl, rfl⟩ := Prod.mk.inj (Except.ok.inj h)
    exact ⟨.nil _, by simp, rfl, rfl, by simp, .nil⟩
  | cons endKey bounds ih =>
    obtain ⟨_, hcheck, h⟩ := bind_eq_ok.mp h
    obtain ⟨_, hset, h⟩ := bind_eq_ok.mp h
    obtain ⟨⟨chunks', last'⟩, hrest, h⟩ := bind_eq_ok.mp h
    obtain ⟨rfl, rfl⟩ := Prod.mk.inj (Except.ok.inj h)
    have hlt := checkSplitPoint_spec (mapError_eq_ok.mp hcheck)
    have hisSet : version.incMinor.isSet = true := by
      unfold setBounds at hset
      split_ifs at hset with hempty
      push Not at hempty
      simpa using hempty.2.2
    have hversion := incMinor_toNat hisSet
    obtain ⟨hconsecutive, hdocs, hmins, hlast, habove, hsorted⟩ := ih hrest
    refine ⟨?_, ?_, ?_, ?_, ?_, pairwise_cons.mpr ⟨habove, hsorted⟩⟩
    · rw [List.getLast?_cons, Option.getD_some]
      exact Consecutive.cons (c := ChunkDoc.new text ns startKey endKey shardName version.incMinor)
        hlt.le hconsecutive
    · exact forall_mem_cons.mpr ⟨⟨rfl, rfl, hlt, rfl⟩, hdocs⟩
    · rw [map_cons, hmins]
      rfl
    · rw [hlast, hversion, length_cons]
      omega
    · refine forall_mem_cons.mpr ⟨Nat.lt_of_lt_of_eq (Nat.lt_succ_self _) hversion.symm, ?_⟩
      intro doc hdoc
      have hdoc := habove doc hdoc
      omega

section
variable (h : Partitioned text ns space docs)
include h

theorem Partitioned.newest (hnewest : findNewest (fun doc => doc.ns = ns') docs = some c) :
    ns' = ns ∧ c ∈ docs ∧ ∀ doc ∈ docs, doc.version.combined.toNat ≤ c.version.combined.toNat := by
  obtain ⟨hc, hns, hmax⟩ := findNewest_spec hnewest
  have hns' : ns' = ns := (of_decide_eq_true hns).symm.trans (h.nss c hc)
  exact ⟨hns', hc, fun doc hdoc => hmax doc hdoc (by simp [h.nss doc hdoc, hns'])⟩

theorem Partitioned.findCollVersion
    (hfind : MongoServer.findCollVersion docs ns' epoch = .ok version) :
    ns' = ns ∧ ∃ c ∈ docs, c.version = version ∧
      ∀ doc ∈ docs, doc.version.combined.toNat ≤ version.combined.toNat := by
  unfold MongoServer.findCollVersion at hfind
  cases hnewest : findNewest (fun doc => doc.ns = ns') docs with
  | none => simp [hnewest] at hfind
  | some c =>
    simp only [hnewest] at hfind
    split_ifs at hfind
    cases hfind
    obtain ⟨hns, hc, hmax⟩ := h.newest hnewest
    exact ⟨hns, c, hc, rfl, hmax⟩

theorem Partitioned.split {points : List BSONObj}
    (hassumed : ChunkCall.Assumed text docs (.split ns' epoch range points shard)) :
    Committed text ns space docs (commitChunkSplit text docs ns' epoch range points shard) := by
  unfold commitChunkSplit
  cases hops : splitOps text docs ns' epoch range points shard with
  | error failure => exact h.unchanged _
  | ok result =>
    obtain ⟨chunks, last⟩ := result
    obtain ⟨version, hversion, hchunks⟩ := bind_eq_ok.mp hops
    obtain ⟨rfl, newest, hnewest, rfl, hmax⟩ := h.findCollVersion hversion
    obtain ⟨hconsecutive, hdocs, hmins, hlast, habove, hsorted⟩ := newChunks_spec hchunks
    rw [← cons_append, dropLast_concat] at hmins
    rw [List.getLast?_append, List.getLast?_singleton, Option.some_or, Option.getD_some]
      at hconsecutive
    cases chunks with
    | nil => simp at hmins
    | cons o chunks =>
    apply h.applied
    · intro doc hdoc
      have hle := hmax doc hdoc
      rw [hlast, length_cons]
      omega
    · intro docs' hpre happly
      have hids := hassumed.separated
      rw [ChunkCall.keys, ← hmins] at hids
      have hkeys : ((o :: chunks).map ChunkOp.update).map ChunkOp.id =
          ((o :: chunks).map ChunkDoc.min).map (genID text ns') := by
        rw [map_map, map_map]
        exact map_congr_left fun p hp => (hdocs p hp).2.1
      have hwritten : ((o :: chunks).map .update).filterMap ChunkOp.written = o :: chunks := by
        rw [filterMap_map]
        exact filterMap_some
      refine (h.replace _ [range] hkeys ?_ hids happly (forall_mem_singleton.mpr
        (PreCondition.check_spec (hpre _ mem_cons_self))) (by simp) ?_ ?_ _ hnewest hwritten hdocs
        (fun k => ?_) ?_ fun doc hdoc d hd => ?_).1
      · rw [map_map]
        exact hconsecutive.nodup fun p hp => (hdocs p hp).2.2.1
      · refine forall_mem_map.mpr fun p hp => ⟨range, mem_cons_self, ?_⟩
        have hbounds := hconsecutive.bounds hp
        exact ⟨hbounds.1, (hdocs p hp).2.2.1.trans_le hbounds.2⟩
      · exact forall_mem_singleton.mpr
          (.inr ⟨o, mem_cons_self, (hdocs o mem_cons_self).1, hconsecutive.eq_lo⟩)
      · rw [hconsecutive.countAt k, countAt_singleton]
        rfl
      · rw [nodup_iff_pairwise_ne, pairwise_map]
        refine hsorted.imp fun {a b} hlt heq => ?_
        rw [heq] at hlt
        exact lt_irrefl _ hlt
      · exact UInt64.lt_iff_toNat_lt.mpr ((hmax d hd).trans_lt (habove doc hdoc))

end

end Split

section Merge

variable {boundaries : List BSONObj}

theorem chunksToMerge_spec {min : BSONObj} (h : chunksToMerge text min boundaries = .ok chunks) :
    Consecutive ChunkRange.lo ChunkRange.hi min.rank chunks (boundaries.getLast?.getD min).rank ∧
    (∀ chunk ∈ chunks, chunk.lo < chunk.hi) ∧
    chunks.map ChunkRange.min = (min :: boundaries).dropLast ∧
    chunks.map ChunkRange.max = boundaries := by
  induction boundaries generalizing min chunks with
  | nil =>
    cases h
    exact ⟨.nil _, by simp, rfl, rfl⟩
  | cons boundary boundaries ih =>
    unfold chunksToMerge at h
    split_ifs at h with hle
    obtain ⟨chunks', hrest, rfl⟩ := bind_pure_eq_ok.mp h
    rw [woCompareNested_le_iff, not_le] at hle
    obtain ⟨hconsecutive, hlt, hmins, hmaxs⟩ := ih hrest
    refine ⟨?_, ?_, ?_, ?_⟩
    · rw [List.getLast?_cons, Option.getD_some]
      exact Consecutive.cons (c := ChunkRange.mk min boundary) hle.le hconsecutive
    · exact forall_mem_cons.mpr ⟨hle, hlt⟩
    · rw [map_cons, hmins]
      rfl
    · rw [map_cons, hmaxs]

theorem checkMerge_spec {first : BSONObj}
    (h : checkMerge text ns first boundaries shard = .ok (chunk, chunks)) :
    chunksToMerge text first boundaries = .ok (chunk :: chunks) := by
  unfold checkMerge at h
  split_ifs at h
  obtain ⟨ranges, hranges, h⟩ := bind_eq_ok.mp h
  cases ranges with
  | nil => cases h
  | cons range ranges =>
    obtain ⟨rfl, rfl⟩ := Prod.mk.inj (Except.ok.inj h)
    exact hranges

theorem mergeOps_spec
    (h : mergeOps text docs ns epoch boundaries shard = .ok (chunk, chunks, version)) :
    ∃ first rest, boundaries = first :: rest ∧ findCollVersion docs ns epoch = .ok version ∧
      chunksToMerge text first rest = .ok (chunk :: chunks) ∧ version.incMinor.isSet = true := by
  cases boundaries with
  | nil => cases h
  | cons first rest =>
    obtain ⟨version', hversion, h⟩ := bind_eq_ok.mp h
    obtain ⟨⟨chunk', chunks'⟩, hcheck, h⟩ := bind_eq_ok.mp h
    dsimp only at h
    split_ifs at h with hset
    have heq := Except.ok.inj h
    simp only [Prod.mk.injEq] at heq
    obtain ⟨rfl, rfl, rfl⟩ := heq
    exact ⟨first, rest, rfl, hversion, checkMerge_spec hcheck, hset⟩

theorem Partitioned.merge (h : Partitioned text ns space docs)
    (hassumed : ChunkCall.Assumed text docs (.merge ns' epoch boundaries shard))
    (hidentified : ChunkCall.Identified text docs (.merge ns' epoch boundaries shard)) :
    Committed text ns space docs (commitChunkMerge text docs ns' epoch boundaries shard) := by
  unfold commitChunkMerge
  cases hops : mergeOps text docs ns' epoch boundaries shard with
  | error failure => exact h.unchanged _
  | ok result =>
    obtain ⟨first, ranges, version⟩ := result
    obtain ⟨boundary, boundaries, rfl, hversion, hranges, hset⟩ := mergeOps_spec hops
    obtain ⟨rfl, newest, hnewest, rfl, hmax⟩ := h.findCollVersion hversion
    obtain ⟨hconsecutive, hlt, hmins, hmaxs⟩ := chunksToMerge_spec hranges
    have hinc := incMinor_toNat hset
    have habove : ∀ d ∈ docs,
        d.version.combined.toNat < newest.version.incMinor.combined.toNat := by
      intro d hd
      have hle := hmax d hd
      omega
    apply h.applied habove
    · intro docs' hpre happly
      rw [map_cons, dropLast_cons_of_ne_nil (by rw [← hmaxs]; simp)] at hmins
      obtain ⟨hfirst, hmins⟩ := List.cons.inj hmins
      have hend : boundaries.getLast?.getD boundary = (ranges.getLast?.getD first).max := by
        rw [← hmaxs, map_cons, List.getLast?_cons, Option.getD_some, List.getLast?_map]
        cases ranges.getLast? <;> rfl
      rw [hend, ← hfirst] at hconsecutive
      have hkeys : (first :: ranges).map ChunkRange.min ⊆ boundary :: boundaries := by
        rw [map_cons, hfirst, hmins]
        exact cons_subset_cons _ (dropLast_subset _)
      have hnodup := hconsecutive.nodup hlt
      have hspan : first.lo < (ranges.getLast?.getD first).hi :=
        (hlt first mem_cons_self).trans_le (hconsecutive.bounds mem_cons_self).2
      let merged := ChunkDoc.new text ns' first.min (ranges.getLast?.getD first).max shard
        newest.version.incMinor
      refine (h.replace ((first :: ranges).map ChunkRange.min) (first :: ranges) ?_
        (by rwa [map_map]) (hassumed.separated.mono (append_subset.mpr
          ⟨subset_append_left _ _, subset_append_of_subset_right _ hkeys⟩)) happly
        (fun range hrange => PreCondition.check_spec (hpre _ (mem_map_of_mem hrange))) hnodup
        (forall_mem_map.mpr fun range hrange => ⟨range, hrange, le_refl _, hlt range hrange⟩)
        (forall_mem_cons.mpr ⟨.inr ⟨merged, mem_cons_self, rfl, rfl⟩,
          fun range hrange => .inl fun d hd hlo => ?_⟩) [merged] hnewest ?_
        (forall_mem_singleton.mpr ⟨rfl, rfl, hspan, rfl⟩) (fun k => ?_) (by simp)
        (forall_mem_singleton.mpr fun d hd => UInt64.lt_iff_toNat_lt.mpr (habove d hd))).1
      · simp [buildMergeChunksApplyOpsUpdates, ChunkOp.id, ChunkDoc.new]
      · have hinner : range.min ∈ (boundary :: boundaries).tail.dropLast := by
          rw [tail_cons, ← hmins]
          exact mem_map_of_mem hrange
        rw [hidentified range.min hinner d hd (woCompareNested_eq_iff.mpr hlo)]
        exact mem_map_of_mem (mem_map_of_mem (mem_cons_of_mem _ hrange))
      · simp [buildMergeChunksApplyOpsUpdates, filterMap_map, ChunkOp.written, Function.comp_def,
          merged]
      · rw [hconsecutive.countAt k, countAt_singleton]
        rfl

end Merge

section Migration

theorem ofParts_toNat (major minor : UInt32) (epoch : OID) :
    (ofParts major minor epoch).combined.toNat = major.toNat * 2 ^ 32 + minor.toNat := by
  have hmajor := major.toNat_lt
  have hminor := minor.toNat_lt
  unfold ofParts
  rw [UInt64.toNat_or, UInt64.toNat_shiftLeft, UInt32.toNat_toUInt64, UInt32.toNat_toUInt64]
  have hshift : (32 : UInt64).toNat % 64 = 32 := rfl
  rw [hshift, Nat.shiftLeft_eq, Nat.mod_eq_of_lt (by omega), Nat.or_comm, ← Nat.shiftLeft_eq,
    ← Nat.shiftLeft_add_eq_or_of_lt hminor, Nat.shiftLeft_eq]

theorem Partitioned.findMaxVersion (h : Partitioned text ns space docs)
    (hfind : MongoServer.findMaxVersion docs ns' = .ok version) :
    ns' = ns ∧ ∃ c ∈ docs, c.version = version ∧ ∀ doc ∈ docs, ∀ minor,
      doc.version.combined < (ofParts (version.majorVersion + 1) minor version.epoch).combined := by
  unfold MongoServer.findMaxVersion at hfind
  cases hnewest : findNewest (fun doc => doc.ns = ns') docs with
  | none => simp [hnewest] at hfind
  | some c =>
    simp only [hnewest] at hfind
    split_ifs at hfind with hset
    cases hfind
    obtain ⟨hns, hc, hmax⟩ := h.newest hnewest
    refine ⟨hns, c, hc, rfl, fun doc hdoc minor => ?_⟩
    have hle := hmax doc hdoc
    unfold isSet at hset
    rw [decide_eq_true_iff, UInt64.lt_iff_toNat_lt, ofParts_toNat, UInt32.toNat_add] at hset
    rw [UInt64.lt_iff_toNat_lt, ofParts_toNat, UInt32.toNat_add]
    rw [c.version.toNat_combined] at hle
    have hone : (1 : UInt32).toNat = 1 := rfl
    have hzero : (0 : UInt32).toNat = 0 := rfl
    have hzero' : (0 : UInt64).toNat = 0 := rfl
    have hmajor := c.version.majorVersion.toNat_lt
    have hminor := c.version.minorVersion.toNat_lt
    omega

theorem checkChunkIsOnShard_spec (h : checkChunkIsOnShard text docs ns chunk shard = .ok ()) :
    ∃ c ∈ docs, c.lo = chunk.lo ∧ c.hi = chunk.hi := by
  unfold checkChunkIsOnShard at h
  split_ifs at h with hfound
  obtain ⟨c, hc, hbounds⟩ := any_eq_true.mp hfound
  exact ⟨c, hc, hasBounds_spec (of_decide_eq_true hbounds).1⟩

theorem migrationOps_spec {migrated : ChunkRange} {source target : String}
    (h : migrationOps text docs ns migrated control epoch source target = .ok ops) :
    (∀ chunk ∈ migrated :: control.toList, ∃ c ∈ docs, c.lo = chunk.lo ∧ c.hi = chunk.hi) ∧
    ∃ version, findMaxVersion docs ns = .ok version ∧
      ops = makeCommitChunkApplyOpsCommand text ns migrated control source target version := by
  obtain ⟨_, -, h⟩ := bind_eq_ok.mp h
  obtain ⟨_, hcheck, h⟩ := bind_eq_ok.mp h
  obtain ⟨version, hversion, h⟩ := bind_eq_ok.mp h
  refine ⟨fun chunk hchunk => ?_, version, hversion, (Except.ok.inj h).symm⟩
  exact checkChunkIsOnShard_spec (forM_eq_ok.mp (mapError_eq_ok.mp hcheck) chunk hchunk)

theorem Partitioned.migrate (h : Partitioned text ns space docs)
    {migrated : ChunkRange} {source target : String}
    (hassumed : ChunkCall.Assumed text docs (.migrate ns' migrated control epoch source target)) :
    Committed text ns space docs
      (commitChunkMigration text docs ns' migrated control epoch source target) ∧
    ((commitChunkMigration text docs ns' migrated control epoch source target).1 = .ok () →
      ∃ doc ∈ (commitChunkMigration text docs ns' migrated control epoch source target).2,
        doc.min = migrated.min ∧ doc.max = migrated.max ∧ doc.shard = target) := by
  unfold commitChunkMigration
  cases hops : migrationOps text docs ns' migrated control epoch source target with
  | error failure => exact ⟨h.unchanged _, by simp⟩
  | ok ops =>
    obtain ⟨hfound, version, hversion, rfl⟩ := migrationOps_spec hops
    obtain ⟨rfl, newest, hnewest, rfl, habove⟩ := h.findMaxVersion hversion
    dsimp only
    cases happly : applyOps (makeCommitChunkApplyOpsCommand text ns' migrated control source target
        newest.version) [] docs with
    | mk result docs' =>
    rcases applyOps_cases happly with ⟨rfl, -, happly⟩ | ⟨⟨failure, rfl⟩, rfl⟩
    · have hnodup : ((migrated :: control.toList).map ChunkRange.lo).Nodup := by
        cases control with
        | none => simp
        | some control =>
          suffices migrated.lo ≠ control.lo by simpa using this
          intro heq
          obtain ⟨c, hc, hlo, hhi⟩ := hfound migrated mem_cons_self
          obtain ⟨c', hc', hlo', hhi'⟩ := hfound control (by simp)
          rw [← hlo, ← hlo'] at heq
          obtain rfl := h.eq_of_lo hc hc' heq
          exact hassumed.2.elim (fun hne => hne (woCompareNested_eq_iff.mpr (hlo'.symm.trans hlo)))
            fun hne => hne (woCompareNested_eq_iff.mpr (hhi'.symm.trans hhi))
      have hlt : ∀ range ∈ migrated :: control.toList, range.lo < range.hi := by
        intro range hrange
        obtain ⟨c, hc, hlo, hhi⟩ := hfound range hrange
        exact hlo ▸ hhi ▸ h.lo_lt_hi hc
      let version (minor : UInt32) :=
        ofParts (newest.version.majorVersion + 1) minor newest.version.epoch
      let written (shard : String) (minor : UInt32) (range : ChunkRange) :=
        ChunkDoc.new text ns' range.min range.max shard (version minor)
      have hnextMinor : (version 0).combined ≠ (version 1).combined := by
        intro heq
        have hnat := congrArg UInt64.toNat heq
        rw [ofParts_toNat, ofParts_toNat] at hnat
        have hone : (1 : UInt32).toNat = 1 := rfl
        have hzero : (0 : UInt32).toNat = 0 := rfl
        omega
      refine And.imp_right (fun hnew _ => ⟨_, hnew mem_cons_self, rfl, rfl, rfl⟩) (h.replace
        ((migrated :: control.toList).map ChunkRange.min) _ ?_ (by rwa [map_map])
        hassumed.separated happly hfound hnodup
        (forall_mem_map.mpr fun range hrange => ⟨range, hrange, le_refl _, hlt range hrange⟩)
        (forall_mem_cons.mpr ⟨.inr ⟨_, mem_cons_self, rfl, rfl⟩, fun range hrange =>
          .inr ⟨_, mem_cons_of_mem _ (mem_map_of_mem hrange), rfl, rfl⟩⟩)
        (written target 0 migrated :: control.toList.map (written source 1)) hnewest ?_
        (forall_mem_cons.mpr ⟨⟨rfl, rfl, hlt _ mem_cons_self, rfl⟩, forall_mem_map.mpr
          fun range hrange => ⟨rfl, rfl, hlt _ (mem_cons_of_mem _ hrange), rfl⟩⟩)
        (fun k => ?_) ?_ (forall_mem_cons.mpr ⟨fun d hd => habove d hd 0,
          forall_mem_map.mpr fun range _ d hd => habove d hd 1⟩))
      · simp [makeCommitChunkApplyOpsCommand, ChunkOp.id, ChunkDoc.new]
      · cases control <;> rfl
      · cases control <;> rfl
      · cases control with
        | none => simp
        | some control => simpa [written, ChunkDoc.new] using hnextMinor
    · exact ⟨h.unchanged _, by simp⟩

end Migration

/-- If the calls of a run find the chunks by their ids, the chunks stay a partition with one epoch
and distinct versions, a call that fails changes nothing, what a call writes has a version above
all, and a migrated range is owned by its new shard. -/
theorem chunks_stay_partitioned (text : Rendering) (ns : String) (space : ChunkRange)
    (docs₀ docs : List ChunkDoc) (h₀ : Partitioned text ns space docs₀)
    (hrun : Steps (ChunkCall.step text)
      (fun docs call => call.Assumed text docs ∧ call.Identified text docs) docs₀ docs) :
    Partitioned text ns space docs ∧
    ∀ call : ChunkCall, call.Assumed text docs → call.Identified text docs →
      Committed text ns space docs (call.commit text docs) ∧
      ∀ migrated control epoch source target,
        call = .migrate call.nss migrated control epoch source target →
        (call.commit text docs).1 = .ok () →
        ∀ doc ∈ (call.commit text docs).2, ∀ key, migrated.containsKey key = true →
          doc.range.containsKey key = true → doc.shard = target := by
  have hcommit : ∀ {docs : List ChunkDoc} {call : ChunkCall}, Partitioned text ns space docs →
      call.Assumed text docs → call.Identified text docs →
      Committed text ns space docs (call.commit text docs) := by
    intro docs call h hassumed hidentified
    cases call with
    | split ns' epoch range points shard => exact h.split hassumed
    | merge ns' epoch boundaries shard => exact h.merge hassumed hidentified
    | migrate ns' migrated control epoch source target => exact (h.migrate hassumed).1
  have h : Partitioned text ns space docs := by
    refine hrun.invariant h₀ fun docs call docs' h hok hstep => ?_
    cases hstep
    exact (hcommit h hok.1 hok.2).partitioned
  refine ⟨h, fun call hassumed hidentified => ⟨hcommit h hassumed hidentified, ?_⟩⟩
  intro migrated control epoch source target hcall hok doc hdoc key hkey hdockey
  have hcommitted := hcommit h hassumed hidentified
  rw [hcall] at hassumed hok hdoc hcommitted
  obtain ⟨owner, howner, hmin, hmax, hshard⟩ := (h.migrate hassumed).2 hok
  have hownerKey : owner.range.containsKey key = true := by
    rw [ChunkDoc.range, hmin, hmax]
    exact hkey
  rw [containsKey_iff] at hdockey hownerKey
  rw [hcommitted.partitioned.tiles.eq_of_mem ⟨key, rfl⟩ hdoc howner hdockey hownerKey]
  exact hshard

section Examples

instance (call : ChunkCall) : Decidable (call.DistinctIds text docs) :=
  inferInstanceAs (Decidable (∀ a ∈ _, ∀ b ∈ _, _ → _))

instance (call : ChunkCall) : Decidable call.WellFormed :=
  match call with
  | .split _ _ _ _ _ => .isTrue trivial
  | .merge _ _ chunkBoundaries _ => inferInstanceAs (Decidable (3 ≤ chunkBoundaries.length))
  | .migrate _ _ none _ _ _ => .isTrue trivial
  | .migrate _ _ (some _) _ _ _ => inferInstanceAs (Decidable (_ ≠ _ ∨ _ ≠ _))

instance (call : ChunkCall) : Decidable (call.Assumed text docs) :=
  inferInstanceAs (Decidable (_ ∧ _))

def keyText : Rendering where
  obj _ := ""
  element _ := ""
  name n := String.ofList (n.bytes.map fun b => Char.ofNat b.toNat)
  value
    | .minKey => "MinKey"
    | .maxKey => "MaxKey"
    | .number (.numberInt n) => toString n.toInt
    | .number (.numberDouble 0x4014000000000000#64) => "5.0"
    | _ => ""
  oid _ := ""

def keyA (v : BSONValue) : BSONObj := [(⟨[0x61], CString.nul_notMem_a⟩, v)]

def keySpace : ChunkRange := ⟨keyA .minKey, keyA .maxKey⟩

def epoch₀ : OID := ⟨List.replicate 12 7, OID.length_sevens⟩

def oneChunk : List ChunkDoc :=
  [.new keyText "db.c" keySpace.min keySpace.max "A" (.ofParts 1 0 epoch₀)]

theorem partitioned_oneChunk : Partitioned keyText "db.c" keySpace oneChunk := by
  constructor
  · simp [oneChunk, ChunkDoc.new]
  · simp [oneChunk, ChunkDoc.new]
  · exact forall_mem_singleton.mpr (by decide +kernel)
  · intro key
    rw [oneChunk, countP_singleton]
    rfl
  · intro doc hdoc doc' hdoc'
    rw [mem_singleton.mp hdoc, mem_singleton.mp hdoc']
  · simp [oneChunk]

def splitAtFive : ChunkCall :=
  .split "db.c" epoch₀ keySpace [keyA (.number (.numberInt 5))] "A"

def moveUpper : ChunkCall :=
  .migrate "db.c" ⟨keyA (.number (.numberInt 5)), keySpace.max⟩
    (some ⟨keySpace.min, keyA (.number (.numberInt 5))⟩) epoch₀ "A" "B"

/-- The boundary is written as a double. -/
def mergeAtFive : ChunkCall :=
  .merge "db.c" epoch₀ [keySpace.min, keyA (.number (.numberDouble 0x4014000000000000#64)),
    keySpace.max] "A"

theorem chunks_stay_partitioned_moveUpper :
    Partitioned keyText "db.c" keySpace (splitAtFive.commit keyText oneChunk).2 ∧
    (moveUpper.commit keyText (splitAtFive.commit keyText oneChunk).2).1 = .ok () ∧
    ∀ doc ∈ (moveUpper.commit keyText (splitAtFive.commit keyText oneChunk).2).2, ∀ key,
      ChunkRange.containsKey ⟨keyA (.number (.numberInt 5)), keySpace.max⟩ key = true →
      doc.range.containsKey key = true → doc.shard = "B" := by
  have hrun : Steps (ChunkCall.step keyText)
      (fun docs call => call.Assumed keyText docs ∧ call.Identified keyText docs) oneChunk
      (splitAtFive.commit keyText oneChunk).2 :=
    .single ⟨splitAtFive, ⟨by decide +kernel, trivial⟩, rfl⟩
  have hok : (moveUpper.commit keyText (splitAtFive.commit keyText oneChunk).2).1 = .ok () := by
    decide +kernel
  have hkept := chunks_stay_partitioned keyText "db.c" keySpace oneChunk _ partitioned_oneChunk hrun
  exact ⟨hkept.1, hok, (hkept.2 moveUpper (by decide +kernel) trivial).2 _ _ _ _ _ rfl hok⟩

/-- A merge at a boundary that is equal to the chunk's but printed differently leaves the second
chunk in place, and two chunks own its keys. -/
theorem merge_leaves_overlap : Partitioned keyText "db.c" keySpace oneChunk ∧
    ∃ docs, Steps (ChunkCall.step keyText) (fun docs call => call.Assumed keyText docs) oneChunk
      docs ∧ ¬Partitioned keyText "db.c" keySpace docs := by
  have hrun : Steps (ChunkCall.step keyText) (fun docs call => call.Assumed keyText docs) oneChunk
      (mergeAtFive.commit keyText (splitAtFive.commit keyText oneChunk).2).2 :=
    Steps.trans (.single ⟨splitAtFive, by decide +kernel, rfl⟩)
      (.single ⟨mergeAtFive, by decide +kernel, rfl⟩)
  refine ⟨partitioned_oneChunk, _, hrun, fun h => ?_⟩
  have hone := h.partition (keyA (.number (.numberInt 5)))
  revert hone
  decide +kernel

end Examples

end MongoServer
