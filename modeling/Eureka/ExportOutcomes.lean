import Mathlib
import Eureka.ExporterEncoding

/-! What a conversion that fails leaves of the two files. The outputs are truncated when they are
opened, before the input is looked at, and nothing restores them. -/
namespace Eureka.ExporterEncoding
open WordBytes BitPlanes Apex Simdjson FixedBlocks Exporter

/-- Both files hold `n` blocks of the records. -/
def BothHold (recs : List AgbRecord) (n : ℕ) (files : AgbFiles) : Prop :=
  files = ⟨some (encodeWords (agbWords recs n)), some (encodeWords (idxWords recs n))⟩

variable {parser : Parser} {slicer : BitSlicer} {env : ExportEnv} {files : AgbFiles}

/-- Two words of planes and one offset for each of the same 64 `n` records. -/
theorem BothHold.sizes {recs : List AgbRecord} {n : ℕ} (h : BothHold recs n files) :
    ∃ agb idx, files = ⟨some agb, some idx⟩ ∧ agb.length = 16 * (64 * n) ∧
      idx.length = 8 * (64 * n) := by
  refine ⟨_, _, h, ?_, idx_size recs n⟩
  rw [agb_size]
  ring

section endings
variable {docs : List (Option Document)}

/-- After the opens, the stream decides. -/
lemma convert_opened {json : Bytes} (hmap : env.map = some json) (hagb : env.agbOpens = true)
    (hidx : env.idxOpens = true) : convertJsonToAgb parser slicer env files =
      match parser.iterateMany json with
      | none => (false, ⟨some [], some []⟩)
      | some docs =>
        match env.throwsAfter with
        | some k => (false, ((docs.take k).foldl (exportEntry slicer)
            (.init env.agbRoom env.idxRoom)).files)
        | none => (true, (finishBlock slicer (docs.foldl (exportEntry slicer)
            (.init env.agbRoom env.idxRoom))).files) := by
  unfold convertJsonToAgb
  rw [hmap, hagb, hidx]
  rfl

lemma encodes_stream (slicer : BitSlicer) (docs : List (Option Document)) :
    Encodes (acceptedRecords docs) (docs.foldl (exportEntry slicer) (.init none none)) := by
  have h := encodes_foldl slicer docs encodes_init
  rwa [List.nil_append] at h

lemma convert_complete (hdocs : env.map.bind parser.iterateMany = some docs)
    (hagb : env.agbOpens = true) (hidx : env.idxOpens = true) (hthrows : env.throwsAfter = none)
    (hroom : env.agbRoom = none) (hroom' : env.idxRoom = none) :
    (convertJsonToAgb parser slicer env files).1 = true ∧ BothHold (acceptedRecords docs)
      (blockCount (acceptedRecords docs).length) (convertJsonToAgb parser slicer env files).2 := by
  obtain ⟨json, hmap, hstream⟩ := Option.bind_eq_some_iff.mp hdocs
  rw [convert_opened hmap hagb hidx, hstream, hthrows, hroom, hroom']
  exact ⟨rfl, finishBlock_files slicer (encodes_stream slicer docs)⟩

end endings

end Eureka.ExporterEncoding
