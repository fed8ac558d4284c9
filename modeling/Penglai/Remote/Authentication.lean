import Penglai.Remote.DeviceSigning
import Penglai.SignTool.Run

namespace Penglai.Remote

open Gm

/-! # What "Authentication passed" stands for

`main` judges its variable, and a file that is missing or short leaves old bytes in it. -/

def TeeReport.Accepted (report : TeeReport) : Prop :=
  report.smPubKey = devPubkey ∧
    sm2Verify report.sigMessage.message (toPublicKey report.smPubKey)
      (toSignature report.signature) = 0

def Complete (file : Option (List UInt8)) : Prop :=
  ∃ content, file = some content ∧ teeReportSize ≤ content.length

/-- The file provides a whole report, and that report is accepted. -/
def Authentic (file : Option (List UInt8)) : Prop :=
  ∃ content, file = some content ∧ teeReportSize ≤ content.length ∧
    (TeeReport.ofBytes content).Accepted

def overlaid (file : Option (List UInt8)) (staleReport : Bytes teeReportSize) : TeeReport :=
  .ofBytes (file.getD [] ++ staleReport.toList.drop (file.getD []).length)

/-! ## Members -/

theorem field_append {width offset : Nat} {front : List UInt8} (back : List UInt8)
    (inside : offset + width ≤ front.length) :
    field width (front ++ back) offset = field width front offset := by
  apply Vector.ext
  intro position bound
  have before : offset + position < front.length := by omega
  simp [field, List.getElem?_append_left before]

theorem ofBytes_append {front : List UInt8} (back : List UInt8)
    (whole : teeReportSize ≤ front.length) :
    TeeReport.ofBytes (front ++ back) = TeeReport.ofBytes front := by
  have size : teeReportSize = 680 := rfl
  rw [size] at whole
  simp only [TeeReport.ofBytes, hashSize, teeCustomFieldSize, teeSigMessageSize, signatureSize,
    publicKeySize]
  rw [field_append back (by omega), field_append back (by omega), field_append back (by omega),
    field_append back (by omega), field_append back (by omega)]

/-! ## The variable -/

theorem overlaid_of_complete {content : List UInt8} (staleReport : Bytes teeReportSize)
    (whole : teeReportSize ≤ content.length) :
    overlaid (some content) staleReport = .ofBytes content :=
  ofBytes_append _ whole

theorem ofBytes_readFileToBuf (file : Option (List UInt8)) (staleReport : Bytes teeReportSize) :
    TeeReport.ofBytes (readFileToBuf file staleReport.toList teeReportSize 0).2 =
      overlaid file staleReport := by
  cases file with
  | none => rfl
  | some content =>
      have buffer : (readFileToBuf (some content) staleReport.toList teeReportSize 0).2 =
          content.take teeReportSize ++
            staleReport.toList.drop (content.take teeReportSize).length := by
        rw [readFileToBuf, List.drop_zero]
        split <;> rfl
      rw [buffer]
      by_cases whole : teeReportSize ≤ content.length
      · have front : teeReportSize ≤ (content.take teeReportSize).length := by
          rw [List.length_take]
          omega
        rw [overlaid_of_complete staleReport whole, ofBytes_append _ front,
          ← ofBytes_append (content.drop teeReportSize) front, List.take_append_drop]
      · rw [List.take_of_length_le (by omega)]
        rfl

section Main

variable {fuel : Nat} {detached : Call → LibState → Option Detached}

theorem start_verify (message : Message) (key : PublicKey) (signature : Signature) :
    LibState.start.call (fuel + 1) detached (.verify message key signature) =
      some (.verdict (sm2Verify message key signature), LibState.ready SignTool.signRng) := by
  have init : LibState.start.sm2Init (fuel + 1) = some (0, LibState.ready SignTool.signRng) :=
    LibState.sm2Init_start (bigdig_of_accepted unseeded_draw)
  rw [LibState.call_of_ready rfl init, LibState.attachedCall]

theorem verifySignature_eq (signatureArg : Bytes signatureSize) (message : Message)
    (pubkeyArg : Bytes publicKeySize) :
    verifySignature (fuel + 1) detached signatureArg message pubkeyArg =
      some (sm2Verify message (toPublicKey pubkeyArg) (toSignature signatureArg)) := by
  simp only [verifySignature, start_verify, Option.bind_eq_bind, Option.bind_some,
    SignTool.status]

theorem remoteMain_eq_some_true_iff (file : Option (List UInt8))
    (staleReport : Bytes teeReportSize) :
    remoteMain (fuel + 1) detached file staleReport = some true ↔
      (overlaid file staleReport).Accepted := by
  rw [← ofBytes_readFileToBuf, TeeReport.Accepted]
  simp only [remoteMain, verifySignature_eq, Option.bind_eq_bind, Option.bind_some,
    Option.some.injEq]
  split_ifs with verified known
  · exact iff_of_true rfl ⟨known, verified⟩
  · exact iff_of_false (by simp) fun accepted => known accepted.1
  · exact iff_of_false (by simp) fun accepted => verified accepted.2

end Main

/-- The verdict is one about the file exactly if the file is complete or the bytes of the
file over the old bytes are not an accepted report. -/
theorem remoteMain_authentic_iff (fuel : Nat) (detached : Call → LibState → Option Detached)
    (file : Option (List UInt8)) (staleReport : Bytes teeReportSize) :
    (remoteMain (fuel + 1) detached file staleReport = some true ↔ Authentic file) ↔
      Complete file ∨ ¬(overlaid file staleReport).Accepted := by
  rw [remoteMain_eq_some_true_iff]
  by_cases complete : Complete file
  · rcases complete with ⟨content, rfl, whole⟩
    refine iff_of_true ?_ (Or.inl ⟨content, rfl, whole⟩)
    rw [overlaid_of_complete staleReport whole]
    constructor
    · intro accepted
      exact ⟨content, rfl, whole, accepted⟩
    · rintro ⟨_, same, _, accepted⟩
      cases same
      exact accepted
  · have refused : ¬Authentic file := by
      rintro ⟨content, present, whole, _⟩
      exact complete ⟨content, present, whole⟩
    simp only [refused, complete, iff_false, false_or]

/-! ## An old report and no file -/

def TeeReport.listed (report : TeeReport) : List UInt8 :=
  report.sigMessage.hash.toList ++ report.sigMessage.customField.toList ++
    report.sigMessage.nonce.toList ++ report.signature.toList ++ report.smPubKey.toList

def TeeReport.bytes (report : TeeReport) : Bytes teeReportSize where
  toArray := report.listed.toArray
  size_toArray := by
    simp only [TeeReport.listed, List.size_toArray, List.length_append, Vector.length_toList]
    rfl

theorem field_of_split {width offset : Nat} {bytes : List UInt8} (front back : List UInt8)
    (member : Bytes width) (split : bytes = front ++ (member.toList ++ back))
    (place : front.length = offset) : field width bytes offset = member := by
  apply Vector.ext
  intro position bound
  have inside : position < member.toList.length := by rwa [Vector.length_toList]
  have past : front.length ≤ front.length + position := Nat.le_add_right _ _
  rw [field, Vector.getElem_ofFn, split, ← place, List.getD_eq_getElem?_getD,
    List.getElem?_append_right past, Nat.add_sub_cancel_left, List.getElem?_append_left inside]
  simp [bound]

theorem ofBytes_listed (report : TeeReport) : TeeReport.ofBytes report.listed = report := by
  have hash : field hashSize report.listed 0 = report.sigMessage.hash :=
    field_of_split [] (report.sigMessage.customField.toList ++ report.sigMessage.nonce.toList ++
      report.signature.toList ++ report.smPubKey.toList) _ (by simp [TeeReport.listed]) rfl
  have customField : field teeCustomFieldSize report.listed hashSize =
      report.sigMessage.customField :=
    field_of_split report.sigMessage.hash.toList (report.sigMessage.nonce.toList ++
      report.signature.toList ++ report.smPubKey.toList) _ (by simp [TeeReport.listed]) (by simp)
  have nonce : field 8 report.listed (hashSize + teeCustomFieldSize) = report.sigMessage.nonce :=
    field_of_split (report.sigMessage.hash.toList ++ report.sigMessage.customField.toList)
      (report.signature.toList ++ report.smPubKey.toList) _ (by simp [TeeReport.listed]) (by simp)
  have signature : field signatureSize report.listed teeSigMessageSize = report.signature :=
    field_of_split (report.sigMessage.hash.toList ++ report.sigMessage.customField.toList ++
      report.sigMessage.nonce.toList) report.smPubKey.toList _ (by simp [TeeReport.listed])
      (by simp [teeSigMessageSize, Nat.add_assoc])
  have smPubKey : field publicKeySize report.listed (teeSigMessageSize + signatureSize) =
      report.smPubKey :=
    field_of_split (report.sigMessage.hash.toList ++ report.sigMessage.customField.toList ++
      report.sigMessage.nonce.toList ++ report.signature.toList) [] _ (by simp [TeeReport.listed])
      (by simp [teeSigMessageSize, Nat.add_assoc])
  rw [TeeReport.ofBytes, hash, customField, nonce, signature, smPubKey]

theorem overlaid_none (report : TeeReport) : overlaid none report.bytes = report := by
  have memory : report.bytes.toList = report.listed := rfl
  rw [overlaid, memory, Option.getD_none, List.length_nil, List.drop_zero, List.nil_append,
    ofBytes_listed]

def signatureBytes (signature : Signature) : Bytes signatureSize := signature.r ++ signature.s

theorem toSignature_signatureBytes (signature : Signature) :
    toSignature (signatureBytes signature) = signature := by
  have memory : (signatureBytes signature).toList = signature.r.toList ++ signature.s.toList :=
    Vector.toList_append
  have r : field 32 (signatureBytes signature).toList 0 = signature.r :=
    field_of_split [] signature.s.toList _ memory rfl
  have s : field 32 (signatureBytes signature).toList 32 = signature.s :=
    field_of_split signature.r.toList [] _ (by rw [memory, List.append_nil]) (by simp)
  rw [toSignature, r, s]

def zeroMessage : TeeSigMessage where
  hash := Vector.replicate hashSize 0
  customField := Vector.replicate teeCustomFieldSize 0
  nonce := Vector.replicate 8 0

def signedReport (sigMessage : TeeSigMessage) : TeeReport where
  sigMessage
  signature := signatureBytes (devSign sigMessage.message)
  smPubKey := devPubkey

theorem signedReport_accepted (sigMessage : TeeSigMessage) :
    (signedReport sigMessage).Accepted := by
  refine ⟨rfl, ?_⟩
  have verified := sm2Verify_devSign sigMessage.message
  rwa [← toSignature_signatureBytes (devSign sigMessage.message)] at verified

theorem remoteMain_leftover :
    remoteMain 1 (fun _ _ => none) none (signedReport zeroMessage).bytes = some true ∧
      ¬Authentic none := by
  constructor
  · rw [remoteMain_eq_some_true_iff, overlaid_none]
    exact signedReport_accepted zeroMessage
  · rintro ⟨_, absent, _⟩
    cases absent

end Penglai.Remote
