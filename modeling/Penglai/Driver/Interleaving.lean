import Penglai.Driver.Placement
import Penglai.Foundation.Interleaving

namespace Penglai.Driver

/-! # Concurrent requests

The device has no lock. Requests take turns between the steps of
`penglai_load_and_run_linux`, and all of them write to one physical memory. -/

structure Request where
  user : Memory
  answers : LoadAndRunAnswers
  enclaveParam : UserParam

/-- The step a request is at; the last one has the css it was given. -/
inductive Stage where
  | load
  | bin
  | dtb
  | css
  | run (enclaveCss : List UInt8)
  | out (ret : Int32)
  deriving DecidableEq

def Request.advance (request : Request) : Stage → Option Event × Stage
  | .load =>
      let ret := loadLinux request.answers.load
      (some .sbiLoad, if ret ≠ 0 then .out ret else .bin)
  | .bin =>
      let (left, bin) := copyFromUser request.user request.enclaveParam.binPtr
        request.enclaveParam.binSize.toNat request.answers.bin
      (some (.store request.enclaveParam.binLoadaddr bin), if left ≠ 0 then .out efault else .dtb)
  | .dtb =>
      let (left, dtb) := copyFromUser request.user request.enclaveParam.dtbPtr
        request.enclaveParam.dtbSize.toNat request.answers.dtb
      (some (.store request.enclaveParam.dtbLoadaddr dtb), if left ≠ 0 then .out efault else .css)
  | .css =>
      if request.enclaveParam.dtbSize.toNat < cssLength then (none, .out efault)
      else
        let (left, enclaveCss) := copyFromUser request.user request.enclaveParam.cssPtr cssLength
          request.answers.css
        (none, if left ≠ 0 then .out efault else .run enclaveCss)
  | .run enclaveCss =>
      (some (.sbiRun (teeSbiParam request.enclaveParam enclaveCss)),
        .out (runLinux request.answers.run))
  | .out ret => (none, .out ret)

def driver {ι : Type} (requests : ι → Request) : Processes ι Stage Event Memory where
  advance i := (requests i).advance
  apply := Event.apply

def entry (ι : Type) (physical : Memory) : Config ι Stage Memory where
  own _ := .load
  shared := physical

def Request.alone (request : Request) : Int32 × List Event :=
  penglaiLoadAndRunLinux request.user request.answers request.enclaveParam

section Alone

variable {ι : Type} (requests : ι → Request) (i : ι)

/-- The five steps of a request by itself are the function. -/
theorem alone_eq :
    ((driver requests).after i .load 5, (driver requests).events i .load 5) =
      (.out (requests i).alone.1, (requests i).alone.2) := by
  generalize same : requests i = request
  rcases request with ⟨user, answers, enclaveParam⟩
  simp only [Processes.after, Processes.events, Processes.eventAt, driver, same, Request.advance,
    Request.alone, penglaiLoadAndRunLinux, copyFromUser]
  by_cases accepted : loadLinux answers.load = 0
  · by_cases bin : min answers.bin enclaveParam.binSize.toNat = 0
    · by_cases dtb : min answers.dtb enclaveParam.dtbSize.toNat = 0
      · by_cases small : enclaveParam.dtbSize.toNat < cssLength
        · simp [accepted, bin, dtb, small]
        · by_cases css : min answers.css cssLength = 0
          · simp [accepted, bin, dtb, small, css]
          · simp [accepted, bin, dtb, small, css]
      · simp [accepted, bin, dtb]
    · simp [accepted, bin]
  · simp [accepted]

theorem after_alone (later : Nat) :
    (driver requests).after i .load (5 + later) = .out (requests i).alone.1 := by
  induction later with
  | zero => exact congrArg Prod.fst (alone_eq requests i)
  | succ later induction =>
      rw [← Nat.add_assoc, Processes.after, induction]
      rfl

theorem mem_alone_iff (event : Event) :
    event ∈ (requests i).alone.2 ↔
      ∃ turn, (driver requests).eventAt i .load turn = some event := by
  have five := congrArg Prod.snd (alone_eq requests i)
  rw [← show (driver requests).events i .load 5 = (requests i).alone.2 from five,
    Processes.mem_events_iff]
  constructor
  · rintro ⟨turn, _, happens⟩
    exact ⟨turn, happens⟩
  · rintro ⟨turn, happens⟩
    by_cases early : turn < 5
    · exact ⟨turn, early, happens⟩
    · rcases Nat.exists_eq_add_of_le (Nat.le_of_not_lt early) with ⟨later, rfl⟩
      rw [Processes.eventAt, after_alone] at happens
      cases happens

theorem after_four {param : TeeSbiParam} (runs : .sbiRun param ∈ (requests i).alone.2) :
    (driver requests).after i .load 4 =
      .run ((requests i).user.read (requests i).enclaveParam.cssPtr cssLength) := by
  rcases placed_of_issued runs with ⟨accepted, bin, dtb, large, css⟩
  simp only [Processes.after, driver, Request.advance, accepted, copyFromUser_of_complete bin,
    copyFromUser_of_complete dtb, copyFromUser_of_complete css, Nat.not_lt.mpr large, ne_eq,
    not_true_eq_false, if_false]

end Alone

/-! ## What a request finds at its run call -/

/-- What lies in physical memory at each step of a request nobody has disturbed. -/
def Request.Undisturbed (request : Request) : Stage → Memory → Prop
  | .dtb, physical =>
      physical.Holds request.enclaveParam.binLoadaddr
        (callerBin request.user request.enclaveParam)
  | .css, physical | .run _, physical =>
      physical.Holds request.enclaveParam.binLoadaddr
        (callerBin request.user request.enclaveParam) ∧
      physical.Holds request.enclaveParam.dtbLoadaddr
        (callerDtb request.user request.enclaveParam)
  | _, _ => True

def Request.Tolerates (request : Request) (address : UInt64) (bytes : List UInt8) : Prop :=
  Memory.Agree request.enclaveParam.binLoadaddr (callerBin request.user request.enclaveParam)
    address bytes ∧
  Memory.Agree request.enclaveParam.dtbLoadaddr (callerDtb request.user request.enclaveParam)
    address bytes

def Request.Apart (request : Request) : Prop :=
  ∀ location,
    Memory.InRange location request.enclaveParam.binLoadaddr request.enclaveParam.binSize.toNat →
    ¬Memory.InRange location request.enclaveParam.dtbLoadaddr request.enclaveParam.dtbSize.toNat

theorem Request.tolerates_of_apart {request : Request} {address : UInt64} {bytes : List UInt8}
    (bin : ∀ location,
      Memory.InRange location request.enclaveParam.binLoadaddr request.enclaveParam.binSize.toNat →
      ¬Memory.InRange location address bytes.length)
    (dtb : ∀ location,
      Memory.InRange location request.enclaveParam.dtbLoadaddr request.enclaveParam.dtbSize.toNat →
      ¬Memory.InRange location address bytes.length) :
    request.Tolerates address bytes := by
  constructor
  · apply Memory.agree_of_apart
    rwa [callerBin_length]
  · apply Memory.agree_of_apart
    rwa [callerDtb_length]

theorem Request.Undisturbed.apply {request : Request} {event : Event}
    (tolerated : ∀ address bytes, event = .store address bytes → request.Tolerates address bytes)
    {stage : Stage} {physical : Memory} (undisturbed : request.Undisturbed stage physical) :
    request.Undisturbed stage (event.apply physical) := by
  cases event with
  | sbiLoad => exact undisturbed
  | sbiRun param => exact undisturbed
  | sbiAttest nonce => exact undisturbed
  | store address bytes =>
      rcases tolerated address bytes rfl with ⟨bin, dtb⟩
      cases stage with
      | load => trivial
      | bin => trivial
      | dtb => exact (undisturbed.write_iff bytes).mpr bin
      | css =>
          exact ⟨(undisturbed.1.write_iff bytes).mpr bin, (undisturbed.2.write_iff bytes).mpr dtb⟩
      | run enclaveCss =>
          exact ⟨(undisturbed.1.write_iff bytes).mpr bin, (undisturbed.2.write_iff bytes).mpr dtb⟩
      | out ret => trivial

theorem Request.Undisturbed.advance {request : Request} (apart : request.Apart) {stage : Stage}
    {physical : Memory} (undisturbed : request.Undisturbed stage physical) :
    request.Undisturbed (request.advance stage).2
      ((request.advance stage).1.elim physical (Event.apply physical)) := by
  cases stage with
  | load =>
      simp only [Request.advance]
      split
      · trivial
      · trivial
  | bin =>
      by_cases complete : min request.answers.bin request.enclaveParam.binSize.toNat = 0
      · simp only [Request.advance, copyFromUser_of_complete complete, ne_eq, not_true_eq_false,
          if_false]
        exact Memory.holds_write physical _ _
      · simp only [Request.advance, copyFromUser, ne_eq, complete, not_false_eq_true, if_true]
        trivial
  | dtb =>
      by_cases complete : min request.answers.dtb request.enclaveParam.dtbSize.toNat = 0
      · simp only [Request.advance, copyFromUser_of_complete complete, ne_eq, not_true_eq_false,
          if_false]
        have agree : Memory.Agree request.enclaveParam.binLoadaddr
            (callerBin request.user request.enclaveParam) request.enclaveParam.dtbLoadaddr
            (callerDtb request.user request.enclaveParam) := by
          apply Memory.agree_of_apart
          rw [callerBin_length, callerDtb_length]
          exact apart
        exact ⟨(undisturbed.write_iff _).mpr agree, Memory.holds_write physical _ _⟩
      · simp only [Request.advance, copyFromUser, ne_eq, complete, not_false_eq_true, if_true]
        trivial
  | css =>
      simp only [Request.advance]
      split
      · trivial
      · split
        · trivial
        · exact undisturbed
  | run enclaveCss => trivial
  | out ret => trivial

/-! ## All interleavings -/

section Interleaved

variable {ι : Type} [DecidableEq ι] (requests : ι → Request) (i : ι)

/-- After any schedule, the next step of the request is this run call. -/
def Issues (physical : Memory) (schedule : List ι) (param : TeeSbiParam) : Prop :=
  ((requests i).advance (((driver requests).run (entry ι physical) schedule).own i)).1 =
    some (.sbiRun param)

/-- Whenever the request issues its run call, the ranges of the call hold its files. -/
def Intact : Prop :=
  ∀ physical schedule param, Issues requests i physical schedule param →
    ((driver requests).run (entry ι physical) schedule).shared.Holds param.binLoadaddr
      (callerBin (requests i).user (requests i).enclaveParam) ∧
    ((driver requests).run (entry ι physical) schedule).shared.Holds param.dtbLoadaddr
      (callerDtb (requests i).user (requests i).enclaveParam)

variable {requests i}

theorem Issues.alone {physical : Memory} {schedule : List ι} {param : TeeSbiParam}
    (issues : Issues requests i physical schedule param) :
    .sbiRun param ∈ (requests i).alone.2 := by
  rw [Issues, Processes.own_run] at issues
  exact (mem_alone_iff requests i _).mpr ⟨_, issues⟩

theorem Issues.param_eq {physical : Memory} {schedule : List ι} {param : TeeSbiParam}
    (issues : Issues requests i physical schedule param) :
    param = teeSbiParam (requests i).enclaveParam
      ((requests i).user.read (requests i).enclaveParam.cssPtr cssLength) := by
  rcases List.append_of_mem issues.alone with ⟨before, after, split⟩
  exact (issued_cases split).2

theorem Issues.stage {physical : Memory} {schedule : List ι} {param : TeeSbiParam}
    (issues : Issues requests i physical schedule param) :
    ∃ enclaveCss, ((driver requests).run (entry ι physical) schedule).own i = .run enclaveCss := by
  rw [Issues] at issues
  cases stage : ((driver requests).run (entry ι physical) schedule).own i with
  | run enclaveCss => exact ⟨enclaveCss, rfl⟩
  | css =>
      rw [stage, Request.advance] at issues
      split at issues
      · cases issues
      · cases issues
  | load => rw [stage] at issues; cases issues
  | bin => rw [stage] at issues; cases issues
  | dtb => rw [stage] at issues; cases issues
  | out ret => rw [stage] at issues; cases issues

theorem intact_of_tolerated (apart : (requests i).Apart)
    (tolerated : ∀ other ≠ i, ∀ address bytes,
      .store address bytes ∈ (requests other).alone.2 → (requests i).Tolerates address bytes) :
    Intact requests i := by
  intro physical schedule param issues
  have undisturbed := (driver requests).run_rely i (requests i).Undisturbed (entry ι physical)
    trivial (fun stage shared undisturbed => undisturbed.advance apart)
    (fun other different turn event happens stage shared undisturbed =>
      undisturbed.apply fun address bytes store =>
        tolerated other different address bytes
          ((mem_alone_iff requests other _).mpr ⟨turn, store ▸ happens⟩))
    schedule
  rcases issues.stage with ⟨enclaveCss, stage⟩
  rw [stage] at undisturbed
  rw [issues.param_eq]
  exact undisturbed

theorem issues_delayed {param : TeeSbiParam} (runs : .sbiRun param ∈ (requests i).alone.2)
    {other : ι} (different : other ≠ i) (physical : Memory) (turns : Nat) :
    Issues requests i physical (List.replicate 4 i ++ List.replicate turns other)
      (teeSbiParam (requests i).enclaveParam
        ((requests i).user.read (requests i).enclaveParam.cssPtr cssLength)) := by
  have count : (List.replicate 4 i ++ List.replicate turns other).count i = 4 := by
    rw [List.count_append, List.count_replicate_self, List.count_replicate,
      beq_false_of_ne different]
    rfl
  rw [Issues, Processes.own_run, count]
  rw [show (entry ι physical).own i = .load from rfl, after_four requests i runs]
  rfl

theorem tolerated_of_intact (intact : Intact requests i) {param : TeeSbiParam}
    (runs : .sbiRun param ∈ (requests i).alone.2) {other : ι} (different : other ≠ i)
    {address : UInt64} {bytes : List UInt8}
    (stores : .store address bytes ∈ (requests other).alone.2) :
    (requests i).Tolerates address bytes := by
  rcases (mem_alone_iff requests other _).mp stores with ⟨turns, happens⟩
  -- both files lie in place right before and right after the store
  have before := intact (fun _ => 0) _ _ (issues_delayed runs different (fun _ => 0) turns)
  have after := intact (fun _ => 0) _ _ (issues_delayed runs different (fun _ => 0) (turns + 1))
  have delayed : List.replicate 4 i ++ List.replicate (turns + 1) other =
      (List.replicate 4 i ++ List.replicate turns other) ++ [other] := by
    rw [List.append_assoc, ← List.replicate_succ']
  have count : (List.replicate 4 i ++ List.replicate turns other).count other = turns := by
    rw [List.count_append, List.count_replicate_self, List.count_replicate,
      beq_false_of_ne (Ne.symm different)]
    exact Nat.zero_add turns
  rw [delayed, Processes.shared_concat, count,
    show (entry ι (fun _ => 0)).own other = .load from rfl, happens] at after
  exact ⟨(before.1.write_iff bytes).mp after.1, (before.2.write_iff bytes).mp after.2⟩

end Interleaved

/-- A request whose two ranges lie apart always carries its own css, and it finds its
own files at its run call in every interleaving exactly if it issues none or every
store of every other request agrees with the files where their ranges overlap. -/
theorem interleaved_intact_iff {ι : Type} [DecidableEq ι] (requests : ι → Request) (i : ι)
    (apart : (requests i).Apart) :
    (∀ physical schedule param, Issues requests i physical schedule param →
      param = teeSbiParam (requests i).enclaveParam
        ((requests i).user.read (requests i).enclaveParam.cssPtr cssLength)) ∧
    (Intact requests i ↔
      (∀ param, .sbiRun param ∉ (requests i).alone.2) ∨
      ∀ other ≠ i, ∀ address bytes, .store address bytes ∈ (requests other).alone.2 →
        (requests i).Tolerates address bytes) := by
  refine ⟨fun _ _ _ issues => issues.param_eq, ?_, ?_⟩
  · intro intact
    by_cases runs : ∃ param, .sbiRun param ∈ (requests i).alone.2
    · rcases runs with ⟨param, runs⟩
      exact Or.inr fun other different address bytes stores =>
        tolerated_of_intact intact runs different stores
    · exact Or.inl (not_exists.mp runs)
  · rintro (never | tolerated)
    · intro physical schedule param issues
      exact absurd issues.alone (never param)
    · exact intact_of_tolerated apart tolerated

/-! ## Two requests for one place -/

/-- Two requests for the same ranges, placed apart, whose images differ in their one
byte. -/
def rivals (second : Bool) : Request where
  user := if second then fun _ => 0 else byteImage
  answers := accepting
  enclaveParam := byteRequest 0x90000000

theorem rivals_apart (second : Bool) : (rivals second).Apart := byteRequest_ranges

theorem rivals_not_intact :
    ¬∀ requests : Bool → Request, (∀ i, (requests i).Apart) → ∀ i, Intact requests i := by
  intro always
  have intact := always rivals rivals_apart false
  have runs : .sbiRun (teeSbiParam (byteRequest 0x90000000) (byteImage.read 0x3000 cssLength)) ∈
      (rivals false).alone.2 := by
    rw [show (rivals false).alone.2 = _ from byteRequest_issued byteImage 0x90000000]
    simp
  have stores : .store 0x80200000 (callerBin (fun _ => 0) (byteRequest 0x90000000)) ∈
      (rivals true).alone.2 := by
    rw [show (rivals true).alone.2 = _ from byteRequest_issued (fun _ => 0) 0x90000000]
    simp
  have agree := (tolerated_of_intact intact runs (show true ≠ false by decide) stores).1
  have cell := agree 0x80200000 (by decide) (by decide)
  exact absurd cell (by decide)

def apartRivals (second : Bool) : Request :=
  { rivals second with
    enclaveParam :=
      if second then { byteRequest 0xB0000000 with binLoadaddr := 0xA0000000 }
      else byteRequest 0x90000000 }

theorem apartRivals_stores {address : UInt64} {bytes : List UInt8}
    (stores : .store address bytes ∈ (apartRivals true).alone.2) :
    (address = 0xA0000000 ∧ bytes.length = 1) ∨ (address = 0xB0000000 ∧ bytes.length = 160) := by
  have placed : Placed accepting (apartRivals true).enclaveParam :=
    ⟨Nat.zero_min _, Nat.zero_min _, show cssLength ≤ (160 : UInt64).toNat by decide,
      Nat.zero_min _⟩
  rw [show (apartRivals true).alone.2 = _ from
    congrArg Prod.snd (penglaiLoadAndRunLinux_of_placed (fun _ => 0) rfl placed)] at stores
  simp only [List.mem_cons, reduceCtorEq, Event.store.injEq, List.not_mem_nil, false_or,
    or_false] at stores
  rcases stores with ⟨rfl, rfl⟩ | ⟨rfl, rfl⟩
  · exact Or.inl ⟨rfl, Memory.read_length ..⟩
  · exact Or.inr ⟨rfl, Memory.read_length ..⟩

theorem apartRivals_intact : Intact apartRivals false := by
  refine (interleaved_intact_iff apartRivals false byteRequest_ranges).2.mpr (Or.inr ?_)
  intro other different address bytes stores
  have second : other = true := by
    cases other with
    | false => exact absurd rfl different
    | true => rfl
  subst second
  rcases apartRivals_stores stores with ⟨rfl, length⟩ | ⟨rfl, length⟩
  · apply Request.tolerates_of_apart
    · rw [length]
      exact Memory.apart_of_distance (by decide) (by decide)
    · rw [length]
      exact Memory.apart_of_distance (by decide) (by decide)
  · apply Request.tolerates_of_apart
    · rw [length]
      exact Memory.apart_of_distance (by decide) (by decide)
    · rw [length]
      exact Memory.apart_of_distance (by decide) (by decide)

end Penglai.Driver
