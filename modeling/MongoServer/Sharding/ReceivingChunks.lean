import MongoServer.Sharding.MetadataManager
import MongoServer.Sharding.OrphanRanges

/-!
The ranges a shard is receiving, over any sequence of calls. They stay pairwise disjoint, disjoint
from the owned chunks, and equal to the pending ranges, as long as no newer metadata brings a chunk
that overlaps a receiving range and starts elsewhere. Such a chunk stops the server: its lower
bound is looked up among the receiving ranges.
-/
namespace MongoServer
open Ranges List

def RangesOverlap (c e : BSONObj × CachedChunkInfo) : Prop :=
  rangeLo c < rangeHi e ∧ rangeLo e < rangeHi c

namespace RangeMap
variable {ranges : RangeMap} {key : BSONObj} {e : BSONObj × CachedChunkInfo}
  {c : BSONObj × CachedChunkInfo} {r : BSONObj × BSONObj}

/-- No range overlaps the given one. -/
abbrev Free (ranges : RangeMap) (e : BSONObj × CachedChunkInfo) : Prop :=
  ∀ c ∈ ranges.entries, ¬RangesOverlap c e

theorem overlap_of_lo_eq (hc : rangeLo c < rangeHi c) (he : rangeLo e < rangeHi e)
    (heq : rangeLo c = rangeLo e) : RangesOverlap c e :=
  ⟨heq ▸ he, heq ▸ hc⟩

theorem ext {ranges ranges' : RangeMap} (h : ranges.entries = ranges'.entries) :
    ranges = ranges' := by
  cases ranges
  cases ranges'
  cases h
  rfl

theorem find_isSome_iff : (ranges.find key).isSome = true ↔
    ∃ e ∈ ranges.entries, rangeLo e = key.rank := by
  rw [find, find?_isSome]
  simp only [decide_eq_true_iff, woCompareNested_eq_iff]
  rfl

theorem mem_erase_iff : e ∈ (ranges.erase key).entries ↔
    e ∈ ranges.entries ∧ rangeLo e ≠ key.rank := by
  rw [erase, mem_filter, decide_eq_true_iff, ne_eq, woCompareNested_eq_iff]
  rfl

theorem Disjoint.erase (h : ranges.Disjoint) (key : BSONObj) : (ranges.erase key).Disjoint :=
  Ranges.Apart.filter h _

theorem mem_eraseAll_iff {overlap : List (BSONObj × BSONObj)} :
    e ∈ (ranges.eraseAll overlap).entries ↔
      e ∈ ranges.entries ∧ ∀ r ∈ overlap, rangeLo e ≠ r.1.rank := by
  induction overlap generalizing ranges with
  | nil => simp [eraseAll]
  | cons r rest ih =>
    have hrest : ranges.eraseAll (r :: rest) = (ranges.erase r.1).eraseAll rest := rfl
    rw [hrest, ih, mem_erase_iff, forall_mem_cons, and_assoc]

section
variable (h : ranges.Disjoint)
include h

namespace Disjoint

theorem eraseAll (overlap : List (BSONObj × BSONObj)) : (ranges.eraseAll overlap).Disjoint :=
  foldlRecOn overlap _ h fun _ h r _ => h.erase r.1

theorem eq_of_overlap
    (hc : c ∈ ranges.entries) (he : e ∈ ranges.entries) (hover : RangesOverlap c e) : c = e := by
  by_contra hne
  rcases h.of_ne hc he hne with hle | hle
  · exact absurd hover.2 (not_lt.mpr hle)
  · exact absurd hover.1 (not_lt.mpr hle)

theorem eq_of_lo_eq
    (hc : c ∈ ranges.entries) (he : e ∈ ranges.entries) (heq : rangeLo c = rangeLo e) : c = e :=
  h.eq_of_overlap hc he (overlap_of_lo_eq (h.nonempty c hc) (h.nonempty e he) heq)

section
variable (hlt : rangeLo e < rangeHi e)
include hlt

theorem mem_getRangeMapOverlap : r ∈ getRangeMapOverlap ranges e.1 e.2.maxKey ↔
      ∃ c ∈ ranges.entries, RangesOverlap c e ∧ (c.1, c.2.maxKey) = r := by
  rw [h.getRangeMapOverlap_eq hlt, mem_map]
  simp only [mem_filter, Bool.and_eq_true, decide_eq_true_iff, RangesOverlap, and_assoc]
  rfl

theorem mem_eraseAll_overlap (c : BSONObj × CachedChunkInfo) :
    c ∈ (ranges.eraseAll (getRangeMapOverlap ranges e.1 e.2.maxKey)).entries ↔
      c ∈ ranges.entries ∧ ¬RangesOverlap c e := by
  rw [mem_eraseAll_iff]
  refine and_congr_right fun hc => ?_
  constructor
  · intro hall hover
    exact hall _ ((h.mem_getRangeMapOverlap hlt).mpr ⟨c, hc, hover, rfl⟩) rfl
  · intro hnot r hr heq
    obtain ⟨d, hd, hover, rfl⟩ := (h.mem_getRangeMapOverlap hlt).mp hr
    rw [h.eq_of_lo_eq hc hd heq] at hnot
    exact hnot hover

theorem eraseAll_overlap_eq_self (hfree : ranges.Free e) :
    ranges.eraseAll (getRangeMapOverlap ranges e.1 e.2.maxKey) = ranges := by
  have hnil : getRangeMapOverlap ranges e.1 e.2.maxKey = [] := by
    refine eq_nil_iff_forall_not_mem.mpr fun r hr => ?_
    obtain ⟨c, hc, hover, -⟩ := (h.mem_getRangeMapOverlap hlt).mp hr
    exact hfree c hc hover
  rw [hnil]
  rfl

theorem emplace (hfree : ranges.Free e) : (ranges.emplace e.1 e.2).Disjoint ∧
      ∀ c, c ∈ (ranges.emplace e.1 e.2).entries ↔ c ∈ ranges.entries ∨ c = e := by
  have habsent : ¬(ranges.find e.1).isSome = true := by
    rw [find_isSome_iff]
    rintro ⟨c, hc, heq⟩
    exact hfree c hc (overlap_of_lo_eq (h.nonempty c hc) hlt heq)
  have hentries : (ranges.emplace e.1 e.2).entries =
      (ranges.entries.filter fun c => rangeLo c < rangeLo e) ++ e ::
        ranges.entries.filter fun c => rangeLo e < rangeLo c := by
    simp only [RangeMap.emplace, if_neg habsent, woCompareNested_pos_iff, woCompareNested_lt_iff]
    rfl
  have hbefore : ∀ c ∈ ranges.entries, rangeLo c < rangeLo e → rangeHi c ≤ rangeLo e := by
    intro c hc hce
    exact not_lt.mp fun hover => hfree c hc ⟨hce.trans hlt, hover⟩
  have hafter : ∀ c ∈ ranges.entries, rangeLo e < rangeLo c → rangeHi e ≤ rangeLo c := by
    intro c hc hec
    exact not_lt.mp fun hover => hfree c hc ⟨hover, hec.trans (h.nonempty c hc)⟩
  have hmem : ∀ c, c ∈ (ranges.emplace e.1 e.2).entries ↔ c ∈ ranges.entries ∨ c = e := by
    intro c
    rw [hentries, mem_append, mem_cons, mem_filter, mem_filter,
      decide_eq_true_iff, decide_eq_true_iff]
    constructor
    · rintro (⟨hc, -⟩ | rfl | ⟨hc, -⟩)
      · exact .inl hc
      · exact .inr rfl
      · exact .inl hc
    · rintro (hc | rfl)
      · rcases lt_trichotomy (rangeLo c) (rangeLo e) with hce | heq | hec
        · exact .inl ⟨hc, hce⟩
        · exact absurd (find_isSome_iff.mpr ⟨c, hc, heq⟩) habsent
        · exact .inr (.inr ⟨hc, hec⟩)
      · exact .inr (.inl rfl)
  refine ⟨⟨fun c hc => ?_, ?_⟩, hmem⟩
  · rcases (hmem c).mp hc with hc | rfl
    · exact h.nonempty c hc
    · exact hlt
  · rw [hentries, pairwise_append, pairwise_cons]
    refine ⟨h.ordered.filter _, ⟨fun c hc => ?_, h.ordered.filter _⟩, fun c hc d hd => ?_⟩
    · obtain ⟨hc, hec⟩ := mem_filter.mp hc
      exact hafter c hc (of_decide_eq_true hec)
    · obtain ⟨hc, hce⟩ := mem_filter.mp hc
      have hle := hbefore c hc (of_decide_eq_true hce)
      rcases mem_cons.mp hd with rfl | hd
      · exact hle
      · obtain ⟨hd, hed⟩ := mem_filter.mp hd
        exact hle.trans (of_decide_eq_true hed).le

end

end Disjoint

end

end RangeMap

namespace CollectionMetadata
variable {metadata : CollectionMetadata}

protected theorem IsBuilt.cloneWithPending (h : metadata.IsBuilt) (pendingMap : RangeMap) :
    metadata.cloneWithPending pendingMap = some { metadata with pendingMap := pendingMap } := by
  obtain ⟨keyPattern, collectionVersion, shardVersion, shardChunksMap, built, hnew, heq⟩ := h
  have hargs : built.shardKeyPattern.keyPattern = keyPattern ∧
      built.collVersion = collectionVersion ∧ built.shardVersion = shardVersion ∧
      built.chunksMap = shardChunksMap := by
    unfold new at hnew
    dsimp only at hnew
    split_ifs at hnew with hinvalid
    all_goals
      cases hnew
      refine ⟨?_, rfl, rfl, rfl⟩
      have hvalid : (ShardKeyPattern.new keyPattern).isValid = true := by simp_all
      revert hvalid
      simp only [ShardKeyPattern.isValid, ShardKeyPattern.new]
      split_ifs
      · simp
      · simp
  obtain ⟨hpattern, hcoll, hshard, hchunks⟩ := hargs
  have hsame : new metadata.shardKeyPattern.keyPattern metadata.collVersion metadata.shardVersion
      metadata.chunksMap = some built := by
    rw [heq]
    dsimp only
    rw [hpattern, hcoll, hshard, hchunks, hnew]
  rw [cloneWithPending, hsame, heq]
  rfl

theorem IsBuilt.withPending (h : metadata.IsBuilt) (pendingMap : RangeMap) :
    IsBuilt { metadata with pendingMap := pendingMap } := by
  obtain ⟨keyPattern, collectionVersion, shardVersion, shardChunksMap, built, hnew, heq⟩ := h
  exact ⟨keyPattern, collectionVersion, shardVersion, shardChunksMap, built, hnew, by rw [heq]⟩

protected theorem IsBuilt.clonePlusPending (h : metadata.IsBuilt)
    (hchunks : metadata.chunksMap.Disjoint) (hpending : metadata.pendingMap.Disjoint) {e : BSONObj × CachedChunkInfo}
    (hlt : rangeLo e < rangeHi e) (hversion : e.2.version = .IGNORED)
    (hfree : metadata.chunksMap.Free e) :
    metadata.clonePlusPending ⟨e.1, e.2.maxKey⟩ = some { metadata with pendingMap :=
      (metadata.pendingMap.eraseAll
        (getRangeMapOverlap metadata.pendingMap e.1 e.2.maxKey)).emplace e.1 e.2 } := by
  have hnone : ¬rangeMapOverlaps metadata.chunksMap e.1 e.2.maxKey = true := by
    rw [hchunks.rangeMapOverlaps_iff hlt]
    rintro ⟨c, hc, hover⟩
    exact hfree c hc hover
  have hinfo : (⟨e.2.maxKey, .IGNORED⟩ : CachedChunkInfo) = e.2 := by rw [← hversion]
  have herase : (if rangeMapOverlaps metadata.pendingMap e.1 e.2.maxKey = true then
        metadata.pendingMap.eraseAll (getRangeMapOverlap metadata.pendingMap e.1 e.2.maxKey)
      else metadata.pendingMap) =
      metadata.pendingMap.eraseAll (getRangeMapOverlap metadata.pendingMap e.1 e.2.maxKey) := by
    split_ifs with hover
    · rfl
    · refine (hpending.eraseAll_overlap_eq_self hlt fun c hc hce => hover ?_).symm
      exact (hpending.rangeMapOverlaps_iff hlt).mpr ⟨c, hc, hce⟩
  simp [clonePlusPending, if_neg hnone, herase, hinfo, h.cloneWithPending]

end CollectionMetadata

namespace MetadataManager

section Erasing
variable {receiving : RangeMap} {overlaps : List (BSONObj × BSONObj)}

theorem eraseReceiving_of_mem (hkeys : overlaps.Pairwise fun r s => r.1.rank ≠ s.1.rank)
    (hmem : ∀ r ∈ overlaps, ∃ e ∈ receiving.entries, rangeLo e = r.1.rank) :
    eraseReceiving receiving overlaps = .ok (receiving.eraseAll overlaps) := by
  induction overlaps generalizing receiving with
  | nil => rfl
  | cons r rest ih =>
    obtain ⟨hr, hrest⟩ := pairwise_cons.mp hkeys
    obtain ⟨hfound, hothers⟩ := forall_mem_cons.mp hmem
    rw [eraseReceiving, if_pos (RangeMap.find_isSome_iff.mpr hfound), ih hrest]
    · rfl
    · intro s hs
      obtain ⟨e, he, heq⟩ := hothers s hs
      exact ⟨e, RangeMap.mem_erase_iff.mpr ⟨he, heq ▸ (hr s hs).symm⟩, heq⟩

theorem eraseReceiving_of_not_mem {r : BSONObj × BSONObj} (hr : r ∈ overlaps)
    (habsent : ∀ e ∈ receiving.entries, rangeLo e ≠ r.1.rank) :
    eraseReceiving receiving overlaps = .error .invariant := by
  induction overlaps generalizing receiving with
  | nil => simp at hr
  | cons s rest ih =>
    rw [eraseReceiving]
    split_ifs with hfound
    · rcases mem_cons.mp hr with rfl | hr
      · obtain ⟨e, he, heq⟩ := RangeMap.find_isSome_iff.mp hfound
        exact absurd heq (habsent e he)
      · exact ih hr fun e he => habsent e (RangeMap.mem_erase_iff.mp he).1
    · rfl

/-- The receiving ranges that overlap a given one are always found. -/
theorem eraseReceiving_overlap (h : receiving.Disjoint) {min max : BSONObj}
    (hlt : min.rank < max.rank) :
    eraseReceiving receiving (getRangeMapOverlap receiving min max) =
      .ok (receiving.eraseAll (getRangeMapOverlap receiving min max)) := by
  rw [h.getRangeMapOverlap_eq hlt]
  apply eraseReceiving_of_mem
  · rw [pairwise_map]
    exact (h.lo_lt.filter _).imp fun hlt => hlt.ne
  · exact forall_mem_map.mpr fun e he => ⟨e, (mem_filter.mp he).1, rfl⟩

end Erasing

section Resolving
variable {chunks receiving : RangeMap} {it n : ℕ} {e : BSONObj × CachedChunkInfo}

/-- Chunks that overlap a range start where it starts. -/
def StartTogether (chunks : RangeMap) (e : BSONObj × CachedChunkInfo) : Prop :=
  ∀ c ∈ chunks.entries, RangesOverlap c e → rangeLo c = rangeLo e

theorem entries_split (hsome : receiving.entries[it]? = some e) :
    receiving.entries = receiving.entries.take it ++ e :: receiving.entries.drop (it + 1) := by
  obtain ⟨hlen, heq⟩ := List.getElem?_eq_some_iff.mp hsome
  rw [← heq, getElem_cons_drop, take_append_drop]

theorem take_erase (hsome : receiving.entries[it]? = some e) :
    receiving.entries.take it <+: (receiving.erase e.1).entries ∧
      (receiving.erase e.1).entries.length < receiving.entries.length := by
  have hfilter : (receiving.erase e.1).entries =
      receiving.entries.filter fun c => woCompareNested c.1 e.1 ≠ 0 := rfl
  have hsorted := receiving.sorted
  have hsplit := entries_split hsome
  rw [hsplit, pairwise_append] at hsorted
  rw [hfilter]
  constructor
  · have htake : (receiving.entries.take it).filter (fun c => woCompareNested c.1 e.1 ≠ 0) =
        receiving.entries.take it :=
      filter_eq_self.mpr fun c hc => decide_eq_true (hsorted.2.2 c hc e mem_cons_self).ne
    nth_rewrite 2 [hsplit]
    rw [filter_append, htake]
    exact prefix_append _ _
  · refine length_filter_lt_length_iff_exists.mpr ⟨e, mem_of_getElem? hsome, ?_⟩
    simp [woCompareNested_eq_iff]

/-- What is left of the receiving ranges where all chunks start together with them. -/
def Resolves (chunks receiving : RangeMap) (result : Except Stop RangeMap) : Prop :=
  ((∀ e ∈ receiving.entries, StartTogether chunks e) ∧ ∃ kept, result = .ok kept ∧ kept.Disjoint ∧
      ∀ e, e ∈ kept.entries ↔ e ∈ receiving.entries ∧ chunks.Free e) ∨
  (∃ e ∈ receiving.entries, ¬StartTogether chunks e) ∧ result = .error .invariant

section
variable (hchunks : chunks.Disjoint)
include hchunks

theorem resolveReceiving_free
    (hsome : receiving.entries[it]? = some e) (hlt : rangeLo e < rangeHi e)
    (hfree : chunks.Free e) :
    resolveReceiving chunks (n + 1) receiving it = resolveReceiving chunks n receiving (it + 1) := by
  have hcontains : ¬rangeMapContains chunks e.1 e.2.maxKey = true := by
    rw [hchunks.rangeMapContains_iff hlt]
    rintro ⟨c, hc, hlo, hhi⟩
    have hover : RangesOverlap c e := ⟨hlo.trans_lt hlt, hlt.trans_eq hhi.symm⟩
    exact hfree c hc hover
  have hoverlaps : rangeMapOverlaps chunks e.1 e.2.maxKey = false := by
    rw [← Bool.not_eq_true, hchunks.rangeMapOverlaps_iff hlt]
    rintro ⟨c, hc, hover⟩
    exact hfree c hc hover
  simp [resolveReceiving, hsome, hcontains, hoverlaps]

theorem overlap_eq_singleton
    (hlt : rangeLo e < rangeHi e) (htogether : StartTogether chunks e) (hc : c ∈ chunks.entries)
    (hce : RangesOverlap c e) : getRangeMapOverlap chunks e.1 e.2.maxKey = [(c.1, c.2.maxKey)] := by
  have hmem : ∀ d, d ∈ (chunks.entries.filter
      fun d => rangeLo d < rangeHi e && rangeLo e < rangeHi d) ↔ d ∈ [c] := by
    intro d
    rw [mem_filter, Bool.and_eq_true, decide_eq_true_iff, decide_eq_true_iff, mem_singleton]
    constructor
    · rintro ⟨hd, hde⟩
      exact hchunks.eq_of_lo_eq hd hc ((htogether d hd hde).trans (htogether c hc hce).symm)
    · rintro rfl
      exact ⟨hc, hce⟩
  have hnodup : (chunks.entries.filter
      fun d => rangeLo d < rangeHi e && rangeLo e < rangeHi d).Nodup :=
    (hchunks.lo_lt.filter _).imp fun hlt heq => absurd (heq ▸ hlt) (lt_irrefl _)
  have hperm := (perm_ext_iff_of_nodup hnodup (nodup_singleton c)).mpr hmem
  exact (hchunks.getRangeMapOverlap_eq hlt).trans (congrArg (map _) (perm_singleton.mp hperm))

theorem resolveReceiving_erase
    (hsome : receiving.entries[it]? = some e) (hlt : rangeLo e < rangeHi e)
    (htogether : StartTogether chunks e) (hover : ∃ c ∈ chunks.entries, RangesOverlap c e) :
    ∃ it' ≤ it, resolveReceiving chunks (n + 1) receiving it =
      resolveReceiving chunks n (receiving.erase e.1) it' := by
  obtain ⟨c, hc, hce⟩ := hover
  have hlo : c.1.rank = e.1.rank := htogether c hc hce
  by_cases hcontains : rangeMapContains chunks e.1 e.2.maxKey = true
  · exact ⟨it, le_refl _, by simp [resolveReceiving, hsome, hcontains]⟩
  · have hoverlaps : rangeMapOverlaps chunks e.1 e.2.maxKey = true :=
      (hchunks.rangeMapOverlaps_iff hlt).mpr ⟨c, hc, hce⟩
    have herased : receiving.erase c.1 = receiving.erase e.1 := by
      apply RangeMap.ext
      simp [RangeMap.erase, woCompareNested_eq_iff, hlo]
    have hfound : (receiving.find c.1).isSome = true :=
      RangeMap.find_isSome_iff.mpr ⟨e, mem_of_getElem? hsome, hlo.symm⟩
    have herase : eraseReceiving receiving (getRangeMapOverlap chunks e.1 e.2.maxKey) =
        .ok (receiving.erase e.1) := by
      rw [overlap_eq_singleton hchunks hlt htogether hc hce]
      simp [eraseReceiving, hfound, herased]
    exact ⟨0, Nat.zero_le _, by simp [resolveReceiving, hsome, hcontains, hoverlaps, herase]⟩

/-- One round at a range that a chunk overlaps and does not start together with. The lower bound of
that chunk is no receiving range's: it lies within this one, or in an earlier one that would have
been erased. -/
theorem resolveReceiving_stop (hreceiving : receiving.Disjoint)
    (hsome : receiving.entries[it]? = some e)
    (hbefore : ∀ d ∈ receiving.entries.take it, chunks.Free d) (hnot : ¬StartTogether chunks e) :
    resolveReceiving chunks (n + 1) receiving it = .error .invariant := by
  have he : e ∈ receiving.entries := mem_of_getElem? hsome
  have hlt := hreceiving.nonempty e he
  unfold StartTogether at hnot
  push Not at hnot
  obtain ⟨c, hc, hce, hne⟩ := hnot
  have hcontains : ¬rangeMapContains chunks e.1 e.2.maxKey = true := by
    rw [hchunks.rangeMapContains_iff hlt]
    rintro ⟨d, hd, hlo, hhi⟩
    have hcd := hchunks.eq_of_overlap hc hd ⟨hce.1.trans_eq hhi.symm, hlo.trans_lt hce.2⟩
    exact hne (hcd ▸ hlo)
  have hoverlaps : rangeMapOverlaps chunks e.1 e.2.maxKey = true :=
    (hchunks.rangeMapOverlaps_iff hlt).mpr ⟨c, hc, hce⟩
  have habsent : ∀ d ∈ receiving.entries, rangeLo d ≠ rangeLo c := by
    intro d hd hlo
    have hcd := RangeMap.overlap_of_lo_eq (hchunks.nonempty c hc) (hreceiving.nonempty d hd) hlo.symm
    have hordered := hreceiving.ordered
    rw [entries_split hsome] at hd hordered
    rcases mem_append.mp hd with hd | hd
    · exact hbefore d hd c hc hcd
    · rcases mem_cons.mp hd with rfl | hd
      · exact hne hlo.symm
      · have hle : rangeHi e ≤ rangeLo d :=
          rel_of_pairwise_cons (pairwise_append.mp hordered).2.1 hd
        exact absurd hce.1 (not_lt.mpr (hle.trans hlo.le))
  have herase := eraseReceiving_of_not_mem
    ((hchunks.mem_getRangeMapOverlap hlt).mpr ⟨c, hc, hce, rfl⟩) habsent
  simp [resolveReceiving, hsome, hcontains, hoverlaps, herase]

theorem resolveReceiving_spec (hreceiving : receiving.Disjoint)
    (hbefore : ∀ d ∈ receiving.entries.take it, chunks.Free d)
    (hn : receiving.entries.length * (receiving.entries.length + 2) +
      (receiving.entries.length - it) < n) :
    Resolves chunks receiving (resolveReceiving chunks n receiving it) := by
  induction n generalizing receiving it with
  | zero => omega
  | succ n ih =>
    cases hsome : receiving.entries[it]? with
    | none =>
      -- at the end everything that is left is free
      rw [take_of_length_le (getElem?_eq_none_iff.mp hsome)] at hbefore
      refine .inl ⟨fun e he c hc hce => absurd hce (hbefore e he c hc), receiving, ?_, hreceiving,
        fun e => ⟨fun he => ⟨he, hbefore e he⟩, fun h => h.1⟩⟩
      simp [resolveReceiving, hsome]
    | some e =>
      have he : e ∈ receiving.entries := mem_of_getElem? hsome
      have hlt := hreceiving.nonempty e he
      obtain ⟨hlen, hget⟩ := List.getElem?_eq_some_iff.mp hsome
      by_cases htogether : StartTogether chunks e
      · by_cases hover : ∃ c ∈ chunks.entries, RangesOverlap c e
        · obtain ⟨it', hit', hround⟩ :=
            resolveReceiving_erase (n := n) hchunks hsome hlt htogether hover
          obtain ⟨⟨after, hafter⟩, hlength⟩ := take_erase hsome
          have hbefore' : ∀ d ∈ (receiving.erase e.1).entries.take it', chunks.Free d := by
            intro d hd
            rw [← hafter, take_append_of_le_length (by
              rw [length_take]
              omega), take_take] at hd
            exact hbefore d (take_subset_take_left _ (min_le_right _ _) hd)
          have hn' : (receiving.erase e.1).entries.length *
              ((receiving.erase e.1).entries.length + 2) +
              ((receiving.erase e.1).entries.length - it') < n := by
            generalize (receiving.erase e.1).entries.length = m at hlength ⊢
            have hsq : (m + 1) * (m + 1 + 2) ≤ _ :=
              Nat.mul_le_mul hlength (Nat.add_le_add_right hlength 2)
            rw [show (m + 1) * (m + 1 + 2) = m * (m + 2) + 2 * m + 3 by ring] at hsq
            omega
          have hkeep : ∀ d, (d ∈ (receiving.erase e.1).entries ∧ chunks.Free d) ↔
              d ∈ receiving.entries ∧ chunks.Free d := by
            intro d
            rw [RangeMap.mem_erase_iff]
            constructor
            · rintro ⟨⟨hd, -⟩, hfree⟩
              exact ⟨hd, hfree⟩
            · rintro ⟨hd, hfree⟩
              refine ⟨⟨hd, fun heq => ?_⟩, hfree⟩
              obtain ⟨c, hc, hce⟩ := hover
              rw [hreceiving.eq_of_lo_eq hd he heq] at hfree
              exact hfree c hc hce
          rw [hround]
          rcases ih (hreceiving.erase e.1) hbefore' hn' with
            ⟨hall, kept, hkept, hdisjoint, hmem⟩ | ⟨⟨d, hd, hnot⟩, hstop⟩
          · refine .inl ⟨fun d hd => ?_, kept, hkept, hdisjoint, fun d => (hmem d).trans (hkeep d)⟩
            by_cases heq : rangeLo d = rangeLo e
            · rwa [hreceiving.eq_of_lo_eq hd he heq]
            · exact hall d (RangeMap.mem_erase_iff.mpr ⟨hd, heq⟩)
          · exact .inr ⟨⟨d, (RangeMap.mem_erase_iff.mp hd).1, hnot⟩, hstop⟩
        · push Not at hover
          rw [resolveReceiving_free hchunks hsome hlt hover]
          refine ih hreceiving ?_ (by omega)
          rw [take_succ_eq_append_getElem hlen, hget]
          exact forall_mem_append.mpr ⟨hbefore, forall_mem_singleton.mpr hover⟩
      · exact .inr ⟨⟨e, he, htogether⟩,
          resolveReceiving_stop hchunks hreceiving hsome hbefore htogether⟩

theorem resolveReceiving_from_start (hreceiving : receiving.Disjoint) :
    Resolves chunks receiving (resolveReceiving chunks (resolveRounds receiving) receiving 0) :=
  resolveReceiving_spec hchunks hreceiving (by simp) (by simp [resolveRounds])

end

end Resolving

section Adding
variable {metadata : CollectionMetadata} {rest : List (BSONObj × CachedChunkInfo)}

theorem addPending_eq_ok (h : metadata.IsBuilt) (hchunks : metadata.chunksMap.Disjoint)
    (hapart : Ranges.Apart rangeLo rangeHi (metadata.pendingMap.entries ++ rest))
    (hversion : ∀ e ∈ rest, e.2.version = .IGNORED)
    (hfree : ∀ e ∈ rest, metadata.chunksMap.Free e) :
    ∃ pendingMap, addPending metadata rest = .ok { metadata with pendingMap := pendingMap } ∧
      pendingMap.entries = metadata.pendingMap.entries ++ rest := by
  induction rest generalizing metadata with
  | nil => exact ⟨metadata.pendingMap, rfl, (append_nil _).symm⟩
  | cons e rest ih =>
    obtain ⟨hordered, -, hbefore⟩ := pairwise_append.mp hapart.ordered
    have hpending : metadata.pendingMap.Disjoint :=
      ⟨fun c hc => hapart.nonempty c (mem_append_left _ hc), hordered⟩
    have hlt : rangeLo e < rangeHi e :=
      hapart.nonempty e (mem_append_right _ mem_cons_self)
    have hprev : ∀ c ∈ metadata.pendingMap.entries, rangeHi c ≤ rangeLo e :=
      fun c hc => hbefore c hc e mem_cons_self
    have hnone : metadata.pendingMap.eraseAll
        (getRangeMapOverlap metadata.pendingMap e.1 e.2.maxKey) = metadata.pendingMap :=
      hpending.eraseAll_overlap_eq_self hlt fun c hc hce =>
        absurd hce.2 (not_lt.mpr (hprev c hc))
    have hlast : (metadata.pendingMap.emplace e.1 e.2).entries =
        metadata.pendingMap.entries ++ [e] := RangeMap.emplace_last fun c hc =>
      woCompareNested_lt_iff.mpr ((hpending.nonempty c hc).trans_le (hprev c hc))
    have hclone := h.clonePlusPending hchunks hpending hlt (hversion e mem_cons_self)
      (hfree e mem_cons_self)
    rw [hnone] at hclone
    obtain ⟨pendingMap, hadd, hentries⟩ := ih (h.withPending (metadata.pendingMap.emplace e.1 e.2))
      hchunks (by rwa [hlast, append_assoc, singleton_append])
      (forall_mem_cons.mp hversion).2
      (forall_mem_cons.mp hfree).2
    refine ⟨pendingMap, ?_, ?_⟩
    · rw [addPending, hclone]
      exact hadd
    · rw [hentries, hlast, append_assoc, singleton_append]

end Adding

/-- The receiving ranges are pairwise disjoint, disjoint from the owned chunks, and equal to the
pending ranges. -/
structure Tracks (active : CollectionMetadata) (receiving : RangeMap) : Prop where
  built : active.IsBuilt
  chunks : active.chunksMap.Disjoint
  disjoint : receiving.Disjoint
  version : ∀ e ∈ receiving.entries, e.2.version = .IGNORED
  apart : ∀ e ∈ receiving.entries, ∀ c ∈ active.chunksMap.entries, ¬RangesOverlap c e
  pending : active.pendingMap = receiving

/-- A collection that is not sharded receives nothing. -/
def Tracked (manager : MetadataManager) : Prop :=
  match manager.activeMetadata with
  | none => manager.receivingChunks = .empty
  | some active => Tracks active manager.receivingChunks

/-- What a caller of the manager guarantees. -/
def Legal (manager : MetadataManager) : Call → Prop
  | .refreshActiveMetadata remoteMetadata =>
      ∀ remote, remoteMetadata = some remote → remote.IsBuilt ∧ remote.chunksMap.Disjoint
  | .beginReceive range => ∃ active, manager.activeMetadata = some active ∧
      woCompareNested range.min range.max < 0 ∧
      ∀ c ∈ active.chunksMap.entries, ¬RangesOverlap c (rangeEntry (range.min, range.max))
  | .forgetReceive range => ∃ e ∈ manager.receivingChunks.entries,
      woCompareNested e.1 range.min = 0 ∧ woCompareNested e.2.maxKey range.max = 0

/-- Metadata is for a sharded collection and has no pending ranges yet, and where it replaces older
metadata of the same epoch, its chunks that overlap a receiving range start where that one does. -/
def Installable (manager : MetadataManager) : Call → Prop
  | .refreshActiveMetadata remoteMetadata => ∀ remote, remoteMetadata = some remote →
      remote.collVersion.isWriteCompatibleWith .UNSHARDED = false ∧
      remote.shardVersion.isWriteCompatibleWith .UNSHARDED = false ∧
      remote.pendingMap = .empty ∧
      ∀ active, manager.activeMetadata = some active →
        active.collVersion.epoch = remote.collVersion.epoch →
        active.collVersion.combined < remote.collVersion.combined →
        ∀ e ∈ manager.receivingChunks.entries, StartTogether remote.chunksMap e
  | _ => True

section Calls
variable {manager : MetadataManager}

theorem empty_disjoint : RangeMap.empty.Disjoint := ⟨by simp [RangeMap.empty], List.Pairwise.nil⟩

theorem tracks_empty {remote : CollectionMetadata} (hbuilt : remote.IsBuilt)
    (hchunks : remote.chunksMap.Disjoint) (hpending : remote.pendingMap = .empty) :
    Tracks remote .empty :=
  ⟨hbuilt, hchunks, empty_disjoint, by simp [RangeMap.empty], by simp [RangeMap.empty], hpending⟩

theorem tracked_withPending {metadata : CollectionMetadata} {receiving : RangeMap}
    (hbuilt : metadata.IsBuilt) (hchunks : metadata.chunksMap.Disjoint)
    (hdisjoint : receiving.Disjoint) (hversion : ∀ e ∈ receiving.entries, e.2.version = .IGNORED)
    (hapart : ∀ e ∈ receiving.entries, metadata.chunksMap.Free e) :
    Tracked ⟨some { metadata with pendingMap := receiving }, receiving⟩ := by
  have htracks : Tracks { metadata with pendingMap := receiving } receiving :=
    ⟨hbuilt.withPending _, hchunks, hdisjoint, hversion, hapart, rfl⟩
  exact htracks

/-- Newer metadata is installed, with the receiving ranges that its chunks leave. -/
theorem installNewer_tracked (manager : MetadataManager) {active remote : CollectionMetadata}
    (h : Tracks active manager.receivingChunks) (hbuilt : remote.IsBuilt)
    (hchunks : remote.chunksMap.Disjoint) (hpending : remote.pendingMap = .empty)
    (htogether : ∀ e ∈ manager.receivingChunks.entries, StartTogether remote.chunksMap e) :
    ∃ manager', manager.installNewer remote = .ok manager' ∧ manager'.Tracked := by
  rcases resolveReceiving_from_start hchunks h.disjoint with
    ⟨-, kept, hkept, hdisjoint, hmem⟩ | ⟨⟨e, he, hnot⟩, -⟩
  · have hnil : remote.pendingMap.entries = [] := by rw [hpending]; rfl
    have hversion : ∀ e ∈ kept.entries, e.2.version = .IGNORED :=
      fun e he => h.version e ((hmem e).mp he).1
    have hfree : ∀ e ∈ kept.entries, remote.chunksMap.Free e :=
      fun e he => ((hmem e).mp he).2
    obtain ⟨pendingMap, hadd, hentries⟩ := addPending_eq_ok hbuilt hchunks
      (by rwa [hnil, nil_append]) hversion hfree
    obtain rfl : pendingMap = kept := RangeMap.ext (by rw [hentries, hnil, nil_append])
    refine ⟨_, ?_, tracked_withPending hbuilt hchunks hdisjoint hversion hfree⟩
    rw [installNewer, hkept]
    dsimp only [bind, Except.bind]
    rw [hadd]
    rfl
  · exact absurd (htogether e he) hnot

section
variable (h : manager.Tracked)
include h

theorem refreshActiveMetadata_tracked {remoteMetadata : Option CollectionMetadata}
    (hlegal : manager.Legal (.refreshActiveMetadata remoteMetadata))
    (hinstall : manager.Installable (.refreshActiveMetadata remoteMetadata)) :
    ∃ manager', manager.refreshActiveMetadata remoteMetadata = .ok manager' ∧ manager'.Tracked := by
  obtain ⟨activeMetadata, receivingChunks⟩ := manager
  cases remoteMetadata with
  | none =>
    cases activeMetadata with
    | none =>
      have hempty : receivingChunks = .empty := h
      refine ⟨⟨none, receivingChunks⟩, ?_, h⟩
      simp [refreshActiveMetadata, hempty, RangeMap.isEmpty, RangeMap.empty]
    | some active => exact ⟨⟨none, .empty⟩, rfl, rfl⟩
  | some remote =>
    obtain ⟨hbuilt, hchunks⟩ := hlegal remote rfl
    obtain ⟨hcoll, hshard, hpending, htogether⟩ := hinstall remote rfl
    cases activeMetadata with
    | none =>
      have hempty : receivingChunks = .empty := h
      refine ⟨⟨some remote, .empty⟩, ?_, tracks_empty hbuilt hchunks hpending⟩
      simp [refreshActiveMetadata, hcoll, hshard, hempty, RangeMap.isEmpty, RangeMap.empty]
    | some active =>
      have htracks : Tracks active receivingChunks := h
      by_cases hepoch : active.collVersion.epoch = remote.collVersion.epoch
      · by_cases hversion : remote.collVersion.combined ≤ active.collVersion.combined
        · refine ⟨⟨some active, receivingChunks⟩, ?_, h⟩
          simp [refreshActiveMetadata, hcoll, hshard, hepoch, hversion]
        · have hnewer := htogether active rfl hepoch (UInt64.not_le.mp hversion)
          obtain ⟨manager', hinstalled, htracked⟩ :=
            installNewer_tracked ⟨some active, receivingChunks⟩ htracks hbuilt hchunks hpending
              hnewer
          refine ⟨manager', ?_, htracked⟩
          simp [refreshActiveMetadata, hcoll, hshard, hepoch, hversion, hinstalled]
      · refine ⟨⟨some remote, .empty⟩, ?_, tracks_empty hbuilt hchunks hpending⟩
        simp [refreshActiveMetadata, hcoll, hshard, hepoch]

theorem beginReceive_tracked {range : ChunkRange} (hlegal : manager.Legal (.beginReceive range)) :
    ∃ manager', manager.beginReceive range = .ok manager' ∧ manager'.Tracked := by
  obtain ⟨active, hactive, hcompare, hfree⟩ := hlegal
  obtain ⟨activeMetadata, receiving⟩ := manager
  obtain rfl : activeMetadata = some active := hactive
  have htracks : Tracks active receiving := h
  obtain ⟨min, max⟩ := range
  have hlt : rangeLo (rangeEntry (min, max)) < rangeHi (rangeEntry (min, max)) :=
    woCompareNested_lt_iff.mp hcompare
  have herase := eraseReceiving_overlap htracks.disjoint (woCompareNested_lt_iff.mp hcompare)
  generalize hrest : receiving.eraseAll (getRangeMapOverlap receiving min max) = others at herase
  have hothers : ∀ c, c ∈ others.entries ↔
      c ∈ receiving.entries ∧ ¬RangesOverlap c (rangeEntry (min, max)) :=
    fun c => hrest ▸ htracks.disjoint.mem_eraseAll_overlap hlt c
  have hclone : active.clonePlusPending ⟨min, max⟩ = some { active with
      pendingMap := others.emplace min ⟨max, .IGNORED⟩ } := by
    have hpending : active.pendingMap.Disjoint := by
      rw [htracks.pending]
      exact htracks.disjoint
    have hplus := htracks.built.clonePlusPending htracks.chunks hpending hlt rfl hfree
    rw [htracks.pending] at hplus
    rw [← hrest]
    exact hplus
  obtain ⟨hdisjoint, hmem⟩ := RangeMap.Disjoint.emplace (hrest ▸ htracks.disjoint.eraseAll _) hlt
    fun c hc => ((hothers c).mp hc).2
  have hold : ∀ c ∈ others.entries, c ∈ receiving.entries := fun c hc => ((hothers c).mp hc).1
  refine ⟨_, ?_, tracked_withPending htracks.built htracks.chunks hdisjoint ?_ ?_⟩
  · simp only [beginReceive, herase, hclone]
    rfl
  · intro c hc
    rcases (hmem c).mp hc with hc | rfl
    · exact htracks.version c (hold c hc)
    · rfl
  · intro c hc
    rcases (hmem c).mp hc with hc | rfl
    · exact htracks.apart c (hold c hc)
    · exact hfree

theorem forgetReceive_tracked {range : ChunkRange} (hlegal : manager.Legal (.forgetReceive range)) :
    ∃ manager', manager.forgetReceive range = .ok manager' ∧ manager'.Tracked := by
  obtain ⟨e, he, hmin, hmax⟩ := hlegal
  obtain ⟨activeMetadata, receiving⟩ := manager
  cases activeMetadata with
  | none =>
    have hempty : receiving = .empty := h
    rw [hempty] at he
    cases he
  | some active =>
    have htracks : Tracks active receiving := h
    have hlt := htracks.disjoint.nonempty e he
    have hlo : rangeLo e = range.min.rank := woCompareNested_eq_iff.mp hmin
    have hhi : rangeHi e = range.max.rank := woCompareNested_eq_iff.mp hmax
    have hfind : receiving.find range.min = some e := by
      obtain ⟨d, hd⟩ := Option.isSome_iff_exists.mp (RangeMap.find_isSome_iff.mpr ⟨e, he, hlo⟩)
      have hdzero := find?_some hd
      have hdlo : rangeLo d = range.min.rank :=
        woCompareNested_eq_iff.mp (of_decide_eq_true hdzero)
      rw [hd, htracks.disjoint.eq_of_lo_eq (mem_of_find?_eq_some hd) he (hdlo.trans hlo.symm)]
    have hcontains : rangeMapContains active.pendingMap range.min range.max = true := by
      rw [htracks.pending, htracks.disjoint.rangeMapContains_iff (hlo ▸ hhi ▸ hlt)]
      exact ⟨e, he, hlo, hhi⟩
    have hclone : active.cloneMinusPending range =
        some { active with pendingMap := receiving.erase range.min } := by
      rw [CollectionMetadata.cloneMinusPending, if_pos hcontains, htracks.built.cloneWithPending,
        htracks.pending]
    have hold : ∀ c ∈ (receiving.erase range.min).entries, c ∈ receiving.entries :=
      fun c hc => (RangeMap.mem_erase_iff.mp hc).1
    refine ⟨_, ?_, tracked_withPending htracks.built htracks.chunks
      (htracks.disjoint.erase range.min) (fun c hc => htracks.version c (hold c hc))
      fun c hc => htracks.apart c (hold c hc)⟩
    simp [forgetReceive, hfind, hmax, hclone]

theorem call_tracked {c : Call} (hlegal : manager.Legal c) (hinstall : manager.Installable c) :
    ∃ manager', manager.call c = .ok manager' ∧ manager'.Tracked := by
  cases c with
  | refreshActiveMetadata remoteMetadata => exact refreshActiveMetadata_tracked h hlegal hinstall
  | beginReceive range => exact beginReceive_tracked h hlegal
  | forgetReceive range => exact forgetReceive_tracked h hlegal

/-- Metadata that has no pending ranges and is not installable stops the server. -/
theorem call_stop {c : Call} (hlegal : manager.Legal c)
    (hfresh : ∀ remote, c = .refreshActiveMetadata (some remote) → remote.pendingMap = .empty)
    (hinstall : ¬manager.Installable c) : manager.call c = .error .invariant := by
  cases c with
  | beginReceive range | forgetReceive range => exact absurd trivial hinstall
  | refreshActiveMetadata remoteMetadata =>
    cases remoteMetadata with
    | none => exact absurd (fun remote h => absurd h (by simp)) hinstall
    | some remote =>
      obtain ⟨activeMetadata, receiving⟩ := manager
      obtain ⟨hbuilt, hchunks⟩ := hlegal remote rfl
      cases hcoll : remote.collVersion.isWriteCompatibleWith .UNSHARDED with
      | true => simp [call, refreshActiveMetadata, hcoll]
      | false =>
        cases hshard : remote.shardVersion.isWriteCompatibleWith .UNSHARDED with
        | true => simp [call, refreshActiveMetadata, hcoll, hshard]
        | false =>
          -- what is left of the condition is about the receiving ranges
          have hnewer : ∃ active, activeMetadata = some active ∧
              active.collVersion.epoch = remote.collVersion.epoch ∧
              active.collVersion.combined < remote.collVersion.combined ∧
              ∃ e ∈ receiving.entries, ¬StartTogether remote.chunksMap e := by
            by_contra hnone
            push Not at hnone
            apply hinstall
            intro remote' heq
            cases heq
            exact ⟨hcoll, hshard, hfresh remote rfl, hnone⟩
          obtain ⟨active, rfl, hepoch, hversion, e, he, hnot⟩ := hnewer
          have htracks : Tracks active receiving := h
          rcases resolveReceiving_from_start hchunks htracks.disjoint with ⟨hall, -⟩ | ⟨-, hstop⟩
          · exact absurd (hall e he) hnot
          · have hinstalled : installNewer ⟨some active, receiving⟩ remote = .error .invariant := by
              rw [installNewer, hstop]
              rfl
            simp [call, refreshActiveMetadata, hcoll, hshard, hepoch,
              UInt64.not_le.mpr hversion, hinstalled]

end

end Calls

/-- A condition holds for every call, in the state in which it is made. -/
def Along (P : MetadataManager → Call → Prop) : MetadataManager → List Call → Prop
  | _, [] => True
  | manager, c :: rest =>
      P manager c ∧ ∀ manager', manager.call c = .ok manager' → Along P manager' rest

theorem run_spec {manager : MetadataManager} {calls : List Call} (h : manager.Tracked)
    (hlegal : Along Legal manager calls) :
    (Along Installable manager calls → ∃ last, manager.run calls = .ok last ∧ last.Tracked) ∧
    ((∀ remote, .refreshActiveMetadata (some remote) ∈ calls → remote.pendingMap = .empty) →
      ¬Along Installable manager calls → manager.run calls = .error .invariant) := by
  induction calls generalizing manager with
  | nil => exact ⟨fun _ => ⟨manager, rfl, h⟩, fun _ hnot => absurd trivial hnot⟩
  | cons c rest ih =>
    by_cases hfirst : manager.Installable c
    · obtain ⟨next, hcall, hnext⟩ := call_tracked h hlegal.1 hfirst
      have halong : Along Installable manager (c :: rest) ↔ Along Installable next rest := by
        simp [Along, hfirst, hcall]
      obtain ⟨htracked, hstop⟩ := ih hnext (hlegal.2 next hcall)
      rw [run, hcall, halong]
      exact ⟨htracked, fun hfresh =>
        hstop fun remote hmem => hfresh remote (mem_cons_of_mem _ hmem)⟩
    · refine ⟨fun hall => absurd hall.1 hfirst, fun hfresh _ => ?_⟩
      rw [run, call_stop h hlegal.1 (fun remote heq => hfresh remote (heq ▸ mem_cons_self)) hfirst]

/-- Any sequence of calls on a collection that is not sharded at first. If all metadata that is
installed meets the condition, no invariant fails and the receiving ranges are tracked. If metadata
comes without pending ranges and misses the condition, an invariant fails. -/
theorem receivingChunks_tracked (calls : List Call) (hlegal : Along Legal init calls) :
    (Along Installable init calls → ∃ manager, init.run calls = .ok manager ∧ manager.Tracked) ∧
    ((∀ remote, .refreshActiveMetadata (some remote) ∈ calls → remote.pendingMap = .empty) →
      ¬Along Installable init calls → init.run calls = .error .invariant) :=
  run_spec rfl hlegal

open CollectionMetadata (keyOf)

def ownsOne (min max : BitVec 32) (major : UInt32) : CollectionMetadata :=
  let version := ChunkVersion.ofParts major 0 ⟨replicate 12 7, OID.length_sevens⟩
  ⟨⟨keyOf 1, [⟨[[0x61]]⟩]⟩, version, version, CollectionMetadata.oneRange min max version, .empty,
    .ofRanges [(keyOf min, keyOf max)]⟩

/-- A shard that owns one chunk starts to receive the range from 0 to 10. -/
def receiveZeroToTen : List Call :=
  [.refreshActiveMetadata (some (ownsOne 20 30 1)), .beginReceive ⟨keyOf 0, keyOf 10⟩]

theorem rangesOverlap_iff {c e : BSONObj × CachedChunkInfo} : RangesOverlap c e ↔
    woCompareNested c.1 e.2.maxKey < 0 ∧ woCompareNested e.1 c.2.maxKey < 0 := by
  rw [woCompareNested_lt_iff, woCompareNested_lt_iff]
  rfl

theorem ownsOne_legal {min max : BitVec 32} {major : UInt32} {manager : MetadataManager}
    (hlt : woCompareNested (keyOf min) (keyOf max) < 0)
    (hbuilt : CollectionMetadata.new (keyOf 1) (ownsOne min max major).collVersion
      (ownsOne min max major).shardVersion (ownsOne min max major).chunksMap =
        some (ownsOne min max major)) :
    manager.Legal (.refreshActiveMetadata (some (ownsOne min max major))) := by
  intro remote heq
  cases heq
  exact ⟨⟨_, _, _, _, _, hbuilt, rfl⟩, CollectionMetadata.oneRange_disjoint _ hlt⟩

theorem receiveZeroToTen_legal {rest : List Call}
    (hrest : ∀ manager, init.run receiveZeroToTen = .ok manager → Along Legal manager rest) :
    Along Legal init (receiveZeroToTen ++ rest) := by
  refine ⟨ownsOne_legal (by decide +kernel) rfl, fun manager hcall => ?_⟩
  have hfirst : init.call (.refreshActiveMetadata (some (ownsOne 20 30 1))) =
    .ok ⟨some (ownsOne 20 30 1), .empty⟩ := rfl
  rw [hfirst] at hcall
  cases hcall
  refine ⟨⟨_, rfl, by decide +kernel, fun c hc => ?_⟩, fun manager' hcall' => ?_⟩
  · rw [mem_singleton.mp hc, rangesOverlap_iff]
    decide +kernel
  · apply hrest manager'
    simp only [receiveZeroToTen, run, hfirst, hcall']

theorem receivingChunks_tracked_zeroToTen : Along Legal init receiveZeroToTen ∧
    ∃ manager, init.run receiveZeroToTen = .ok manager ∧ manager.Tracked := by
  have hlegal : Along Legal init (receiveZeroToTen ++ []) :=
    receiveZeroToTen_legal fun _ _ => trivial
  refine ⟨hlegal, (receivingChunks_tracked receiveZeroToTen hlegal).1 ⟨?_, fun _ _ => ⟨trivial,
    fun _ _ => trivial⟩⟩⟩
  intro remote heq
  cases heq
  exact ⟨by decide +kernel, by decide +kernel, rfl, by simp [init]⟩

/-- Newer metadata brings a chunk in the middle of the range being received. -/
theorem receivingChunks_stop_fiveToSeven :
    let calls := receiveZeroToTen ++ [.refreshActiveMetadata (some (ownsOne 5 7 2))]
    Along Legal init calls ∧ init.run calls = .error .invariant := by
  constructor
  · apply receiveZeroToTen_legal
    intro manager _
    constructor
    · apply ownsOne_legal
      · decide +kernel
      · rfl
    · exact fun _ _ => trivial
  · rfl

end MetadataManager
end MongoServer
