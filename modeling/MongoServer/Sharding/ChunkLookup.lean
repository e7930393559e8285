import MongoServer.Sharding.RangeTargeting

/-!
The chunk for a shard key. A routing table is refused if the ranges that its chunks are joined to
leave a gap or overlap, but inside such a range the chunks are not compared.
-/
namespace MongoServer
open Ranges Transition ChunkManager List Prod

namespace ChunkManager

/-- The chunk for a key under the simple collation, in a map by upper bounds. -/
def findIntersectingChunk (text : Rendering) (chunks : List Chunk) (shardKey : BSONObj) :
    Except Failure Chunk :=
  match (chunks.find? fun c => woCompareNested shardKey c.max < 0).filter fun c =>
      (⟨c.min, c.max⟩ : ChunkRange).containsKey shardKey with
  | some c => .ok c
  | none => .error (.status ⟨ErrorCodes.ShardKeyNotFound,
      "Cannot target single shard using key " ++ text.obj shardKey⟩)

end ChunkManager

variable {text : Rendering} {epoch : OID} {keyPattern o : BSONObj} {chunks rest : List Chunk}
  {views views' : ChunkMapViews} {current prev : ShardAndChunkRange} {c : Chunk}

theorem insertRange_touches (h : insertRange text views current = .ok views')
    (hprev : views.chunkRangeMap.getLast? = some prev) : prev.hi = current.lo := by
  rw [insertRange, hprev, Option.filter_some] at h
  split_ifs at h with hgap
  exact woCompareNested_eq_iff.mp (by simpa using hgap)

theorem constructFrom_touches (h : constructFrom text epoch views current rest = .ok views')
    (hprev : views.chunkRangeMap.getLast? = some prev) : prev.hi = current.lo := by
  induction rest generalizing views current with
  | nil => exact insertRange_touches h hprev
  | cons chunk rest ih =>
    rw [constructFrom] at h
    split_ifs at h
    · have hjoined := ih h hprev
      exact hjoined
    · obtain ⟨inserted, hinserted, -⟩ := bind_eq_ok.mp h
      exact insertRange_touches hinserted hprev

/-- Chunks of one shard that follow each other leave no gap and do not overlap. -/
def Seamless (chunks : List Chunk) : Prop :=
  chunks.IsChain fun c d => c.shardId = d.shardId → c.hi = d.lo

/-- Chunks of different shards that follow each other were compared. -/
theorem constructFrom_isChain (h : constructFrom text epoch views current rest = .ok views')
    (hc : c.hi = current.hi ∧ c.shardId = current.shardId) (hseamless : Seamless (c :: rest)) :
    (c :: rest).IsChain fun c d => c.hi = d.lo := by
  induction rest generalizing views current c with
  | nil => exact .singleton c
  | cons chunk rest ih =>
    obtain ⟨hsame, hseamless⟩ := isChain_cons_cons.mp hseamless
    rw [constructFrom] at h
    split_ifs at h with hshard
    · exact .cons_cons (hsame (hc.2.trans hshard.symm)) (ih h ⟨rfl, hshard⟩ hseamless)
    · obtain ⟨inserted, hinserted, h⟩ := bind_eq_ok.mp h
      rw [insertRange_ok hinserted] at h
      refine .cons_cons ?_ (ih h ⟨rfl, rfl⟩ hseamless)
      rw [hc.1, constructFrom_touches h (by simp [trackChunk])]
      rfl

theorem joinChunks_ends (hc : c.max = current.range.max) : joinChunks current rest ≠ [] ∧
      (∀ r ∈ (joinChunks current rest).head?, r.range.min = current.range.min) ∧
      ∀ r ∈ (joinChunks current rest).getLast?,
        r.range.max = ((c :: rest).getLast (cons_ne_nil c rest)).max := by
  induction rest generalizing current c with
  | nil => simp [joinChunks, hc]
  | cons chunk rest ih =>
    rw [joinChunks, getLast_cons_cons]
    split_ifs
    · exact ih rfl
    · obtain ⟨hne, -, hlast⟩ := @ih ⟨⟨chunk.min, chunk.max⟩, chunk.shardId⟩ chunk rfl
      refine ⟨by simp, by simp, ?_⟩
      rwa [getLast?_cons_of_ne_nil hne]

theorem eq_of_all {isType : BSONValue → Bool} {v : BSONValue}
    (hv : ∀ w, isType w = true → w = v) (hall : ∀ e ∈ o, isType e.2 = true)
    (hnames : o.map fst = keyPattern.map fst) : o = keyPattern.map fun e => (e.1, v) := by
  rw [← map_names hnames v]
  refine (map_id o).symm.trans (map_congr_left fun e he => ?_)
  rw [← hv e.2 (hall e he)]
  rfl

theorem checkAllElementsAreOfType_ok {isType : BSONValue → Bool} {typeName : String} {u : Unit}
    (h : checkAllElementsAreOfType text isType typeName o = .ok u) : ∀ e ∈ o, isType e.2 = true := by
  unfold checkAllElementsAreOfType at h
  split_ifs at h with hall
  exact all_eq_true.mp hall

theorem checkCoversKeySpace_ok (h : checkCoversKeySpace text views = .ok ()) :
    (∃ r ∈ views.chunkRangeMap.head?, ∀ e ∈ r.range.min, isMinKey e.2 = true) ∧
      ∃ r ∈ views.chunkRangeMap.getLast?, ∀ e ∈ r.range.max, isMaxKey e.2 = true := by
  unfold checkCoversKeySpace at h
  split at h
  · next first last hfirst hlast =>
    obtain ⟨_, hmin, hmax⟩ := bind_eq_ok.mp h
    exact ⟨⟨first, hfirst, checkAllElementsAreOfType_ok hmin⟩,
      last, hlast, checkAllElementsAreOfType_ok hmax⟩
  · cases h

section
variable (hviews : constructChunkMapViews text epoch chunks = .ok views)
  (hlt : ∀ c ∈ chunks, c.lo < c.hi)
  (hnames : ∀ c ∈ chunks, c.min.map fst = keyPattern.map fst ∧ c.max.map fst = keyPattern.map fst)
include hviews hlt hnames

theorem partitions_of_seamless (h : Seamless chunks) : PartitionsKeySpace keyPattern chunks := by
  cases chunks with
  | nil => cases hviews
  | cons first rest =>
    obtain ⟨hbuilt, hmap, -, hcovers⟩ := constructChunkMapViews_ok hviews
    obtain ⟨⟨low, hlow, hmin⟩, high, hhigh, hmax⟩ := checkCoversKeySpace_ok hcovers
    have hends := (@joinChunks_ends rest ⟨⟨first.min, first.max⟩, first.shardId⟩ first rfl).2
    rw [hmap] at hlow hhigh
    have hall := consecutive_of_isChain (constructFrom_isChain hbuilt ⟨rfl, rfl⟩ h)
      fun c hc => (hlt c hc).le
    have hfirst : first.min = keyPattern.map fun e => (e.1, .minKey) :=
      eq_of_all (by rintro (_ | _) h <;> first | rfl | cases h) (hends.1 low hlow ▸ hmin)
        (hnames first mem_cons_self).1
    have hlast : ((first :: rest).getLast _).max = keyPattern.map fun e => (e.1, .maxKey) :=
      eq_of_all (by rintro (_ | _) h <;> first | rfl | cases h) (hends.2 high hhigh ▸ hmax)
        (hnames _ (getLast_mem _)).2
    rw [Chunk.lo, Chunk.hi, hfirst, hlast] at hall
    exact ⟨hall, hlt⟩

end

end MongoServer
