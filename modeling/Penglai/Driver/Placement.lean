import Penglai.Driver.Ioctl
import Penglai.SignTool.Measure

namespace Penglai.Driver

open SignTool

/-! # What runs and what was measured

The driver places the image and then the device tree at addresses it does not check.
The monitor is told the two ranges and measures them in place. -/

def memoryAfter (physical : Memory) (events : List Event) : Memory :=
  events.foldl Event.apply physical

def TeeSbiParam.inPlace (teeSbiParam : TeeSbiParam) : UserParam where
  binPtr := teeSbiParam.binLoadaddr
  binSize := teeSbiParam.binSize
  binLoadaddr := teeSbiParam.binLoadaddr
  dtbPtr := teeSbiParam.dtbLoadaddr
  dtbSize := teeSbiParam.dtbSize
  dtbLoadaddr := teeSbiParam.dtbLoadaddr
  cssPtr := 0
  cssSize := 0

def callerBin (user : Memory) (enclaveParam : UserParam) : List UInt8 :=
  user.read enclaveParam.binPtr enclaveParam.binSize.toNat

def callerDtb (user : Memory) (enclaveParam : UserParam) : List UInt8 :=
  user.read enclaveParam.dtbPtr enclaveParam.dtbSize.toNat

@[simp] theorem callerBin_length (user : Memory) (enclaveParam : UserParam) :
    (callerBin user enclaveParam).length = enclaveParam.binSize.toNat :=
  Memory.read_length ..

@[simp] theorem callerDtb_length (user : Memory) (enclaveParam : UserParam) :
    (callerDtb user enclaveParam).length = enclaveParam.dtbSize.toNat :=
  Memory.read_length ..

section Issued

variable {user : Memory} {answers : LoadAndRunAnswers} {enclaveParam : UserParam}

theorem placed_of_issued {teeSbiParam : TeeSbiParam}
    (issued : .sbiRun teeSbiParam ∈ (penglaiLoadAndRunLinux user answers enclaveParam).2) :
    loadLinux answers.load = 0 ∧ Placed answers enclaveParam := by
  by_cases accepted : loadLinux answers.load = 0
  · refine ⟨accepted, ?_⟩
    by_contra unplaced
    rcases penglaiLoadAndRunLinux_of_unplaced user accepted unplaced with ⟨stores, result, few⟩
    rw [result] at issued
    cases few with
    | inl few => simp [few] at issued
    | inr few => simp [few] at issued
  · rw [penglaiLoadAndRunLinux_of_refused user enclaveParam accepted] at issued
    simp at issued

theorem issued_cases {before after : List Event} {param : TeeSbiParam}
    (issued : (penglaiLoadAndRunLinux user answers enclaveParam).2 =
      before ++ .sbiRun param :: after) :
    before = [.sbiLoad, .store enclaveParam.binLoadaddr (callerBin user enclaveParam),
      .store enclaveParam.dtbLoadaddr (callerDtb user enclaveParam)] ∧
    param = teeSbiParam enclaveParam (user.read enclaveParam.cssPtr cssLength) := by
  obtain ⟨accepted, placed⟩ := placed_of_issued
    (show .sbiRun param ∈ (penglaiLoadAndRunLinux user answers enclaveParam).2 by
      rw [issued]; simp)
  have result := penglaiLoadAndRunLinux_of_placed user accepted placed
  have events := issued.symm.trans (congrArg Prod.snd result)
  -- the run call is the fourth event and the only one of its kind
  match before, events with
  | [_, _, _], events =>
      simp only [List.cons_append, List.nil_append, List.cons.injEq, Event.sbiRun.injEq] at events
      rcases events with ⟨first, second, third, same, -⟩
      rw [first, second, third]
      exact ⟨rfl, same⟩
  | [], events | [_], events | [_, _], events | _ :: _ :: _ :: _ :: _, events => simp at events

end Issued

/-- The stores in front of a run call: the device tree is in place, and the image is
where the device tree agrees with it. -/
theorem memoryAfter_placed (physical user : Memory) (enclaveParam : UserParam) :
    let placed := memoryAfter physical
      [.sbiLoad, .store enclaveParam.binLoadaddr (callerBin user enclaveParam),
        .store enclaveParam.dtbLoadaddr (callerDtb user enclaveParam)]
    placed.Holds enclaveParam.dtbLoadaddr (callerDtb user enclaveParam) ∧
      (placed.Holds enclaveParam.binLoadaddr (callerBin user enclaveParam) ↔
        Memory.Agree enclaveParam.binLoadaddr (callerBin user enclaveParam)
          enclaveParam.dtbLoadaddr (callerDtb user enclaveParam)) :=
  ⟨Memory.holds_write _ _ _, (Memory.holds_write physical _ _).write_iff _⟩

theorem measuredStream_inPlace_iff (physical user : Memory) (enclaveParam : UserParam)
    (enclaveCss : List UInt8) :
    measuredStream physical (teeSbiParam enclaveParam enclaveCss).inPlace =
        measuredStream user enclaveParam ↔
      physical.Holds enclaveParam.binLoadaddr (callerBin user enclaveParam) ∧
        physical.Holds enclaveParam.dtbLoadaddr (callerDtb user enclaveParam) := by
  have binBound : (callerBin user enclaveParam).length ≤ 2 ^ 64 := by
    rw [callerBin_length]
    exact enclaveParam.binSize.toNat_lt.le
  have dtbBound : (callerDtb user enclaveParam).length ≤ 2 ^ 64 := by
    rw [callerDtb_length]
    exact enclaveParam.dtbSize.toNat_lt.le
  rw [Memory.holds_iff_read binBound, Memory.holds_iff_read dtbBound, callerBin_length,
    callerDtb_length, measuredStream_eq, measuredStream_eq, Load.stream, Load.stream]
  constructor
  · intro same
    rcases List.append_inj same (by simp) with ⟨-, files⟩
    rcases List.append_inj files
      (by simp [requestedLoad, TeeSbiParam.inPlace, teeSbiParam]) with ⟨bin, rest⟩
    rcases List.append_inj rest (by simp) with ⟨-, dtb⟩
    exact ⟨bin, dtb⟩
  · rintro ⟨bin, dtb⟩
    simp only [requestedLoad, TeeSbiParam.inPlace, teeSbiParam, bin, dtb]
    rfl

/-- When a run call is issued, its parameter describes the ranges of the request and
carries its css, and what lies there measures as the caller's files exactly if the two
files agree wherever their ranges overlap. -/
theorem issued_stream_iff (user physical : Memory) (answers : LoadAndRunAnswers)
    (enclaveParam : UserParam) (before after : List Event) (param : TeeSbiParam)
    (issued : (penglaiLoadAndRunLinux user answers enclaveParam).2 =
      before ++ .sbiRun param :: after) :
    param.binLoadaddr = enclaveParam.binLoadaddr ∧ param.binSize = enclaveParam.binSize ∧
    param.dtbLoadaddr = enclaveParam.dtbLoadaddr ∧ param.dtbSize = enclaveParam.dtbSize ∧
    param.enclaveCss = user.read enclaveParam.cssPtr cssLength ∧
    (memoryAfter physical before).Holds enclaveParam.dtbLoadaddr (callerDtb user enclaveParam) ∧
    (measuredStream (memoryAfter physical before) param.inPlace =
        measuredStream user enclaveParam ↔
      Memory.Agree enclaveParam.binLoadaddr (callerBin user enclaveParam)
        enclaveParam.dtbLoadaddr (callerDtb user enclaveParam)) := by
  rcases issued_cases issued with ⟨rfl, rfl⟩
  rcases memoryAfter_placed physical user enclaveParam with ⟨dtb, bin⟩
  refine ⟨rfl, rfl, rfl, rfl, rfl, dtb, ?_⟩
  rw [measuredStream_inPlace_iff, ← bin]
  exact and_iff_left dtb

/-! ## Two ranges that overlap -/

def byteImage : Memory := fun location => if location = 0x1000 then 1 else 0

def byteRequest (dtbLoadaddr : UInt64) : UserParam where
  binPtr := 0x1000
  binSize := 1
  binLoadaddr := 0x80200000
  dtbPtr := 0x2000
  dtbSize := 160
  dtbLoadaddr := dtbLoadaddr
  cssPtr := 0x3000
  cssSize := 160

def accepting : LoadAndRunAnswers where
  load := ⟨0, 0⟩
  bin := 0
  dtb := 0
  css := 0
  run := ⟨0, 0⟩

theorem byteRequest_issued (user : Memory) (dtbLoadaddr : UInt64) :
    (penglaiLoadAndRunLinux user accepting (byteRequest dtbLoadaddr)).2 =
      [.sbiLoad, .store 0x80200000 (callerBin user (byteRequest dtbLoadaddr)),
        .store dtbLoadaddr (callerDtb user (byteRequest dtbLoadaddr))] ++
      [.sbiRun (teeSbiParam (byteRequest dtbLoadaddr) (user.read 0x3000 cssLength))] := by
  have placed : Placed accepting (byteRequest dtbLoadaddr) :=
    ⟨Nat.zero_min _, Nat.zero_min _, show cssLength ≤ (160 : UInt64).toNat by decide,
      Nat.zero_min _⟩
  exact congrArg Prod.snd (penglaiLoadAndRunLinux_of_placed user rfl placed)

theorem byteRequest_ranges (location : UInt64)
    (inside : Memory.InRange location 0x80200000 (1 : UInt64).toNat) :
    ¬Memory.InRange location 0x90000000 (160 : UInt64).toNat :=
  Memory.apart_of_distance (by decide) (by decide) location inside

theorem byteRequest_overlapping :
    ¬∀ (user physical : Memory) (answers : LoadAndRunAnswers) (enclaveParam : UserParam)
      (before after : List Event) (param : TeeSbiParam),
      (penglaiLoadAndRunLinux user answers enclaveParam).2 = before ++ .sbiRun param :: after →
      measuredStream (memoryAfter physical before) param.inPlace =
        measuredStream user enclaveParam := by
  intro same
  have stream := same byteImage (fun _ => 0) accepting (byteRequest 0x80200000) _ _ _
    (byteRequest_issued byteImage 0x80200000)
  have bin := ((measuredStream_inPlace_iff ..).mp stream).1
  have cell := (memoryAfter_placed ..).2.mp bin 0x80200000 (by decide)
    (by rw [callerDtb_length]; decide)
  rw [callerBin, callerDtb, Memory.getD_read _ _ (by decide), Memory.getD_read _ _ (by decide)]
    at cell
  exact absurd cell (by decide)

theorem byteRequest_apart :
    measuredStream (memoryAfter (fun _ => 0)
        [.sbiLoad, .store 0x80200000 (callerBin byteImage (byteRequest 0x90000000)),
          .store 0x90000000 (callerDtb byteImage (byteRequest 0x90000000))])
        (teeSbiParam (byteRequest 0x90000000) (byteImage.read 0x3000 cssLength)).inPlace =
      measuredStream byteImage (byteRequest 0x90000000) := by
  have stream := issued_stream_iff byteImage (fun _ => 0) accepting (byteRequest 0x90000000)
    _ _ _
    (byteRequest_issued byteImage 0x90000000)
  apply stream.2.2.2.2.2.2.mpr
  apply Memory.agree_of_apart
  rw [callerBin_length, callerDtb_length]
  exact byteRequest_ranges

end Penglai.Driver
