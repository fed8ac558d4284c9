import Mathlib.Tactic

namespace Penglai

/-! # Option tables

A command line of options and values, read into one cell for each entry of a table,
and checked: required and forbidden entries, and values that occur twice. The library
is generic in the type of arguments and in what a value may not be. -/

universe u

variable {α : Type u}

inductive Flag where
  | required
  | optional
  | invalid
  deriving DecidableEq

structure Param (α : Type u) where
  name : α
  flag : Flag

inductive OptionError (α : Type u) where
  | unrecognized (arg : α)
  | badValue (name : α)
  | repeated (name : α)
  | missing (name : α)
  | forbidden (name : α)
  | sameValue (name other : α)

section Parse

variable [DecidableEq α]

/-- The scan over the arguments, two at a time. -/
def scanOptions (names : List α) (barred : α → Bool) :
    List α → List (Option α) → Except (OptionError α) (List (Option α))
  | [], values => .ok values
  | [arg], _ =>
      if names.idxOf arg = names.length then .error (.unrecognized arg)
      else .error (.badValue arg)
  | arg :: value :: args, values =>
      if names.idxOf arg = names.length then .error (.unrecognized arg)
      else if barred value then .error (.badValue arg)
      else if values.getD (names.idxOf arg) none ≠ none then .error (.repeated arg)
      else scanOptions names barred args (values.set (names.idxOf arg) (some value))

def checkFlags : List (Param α) → List (Option α) → Except (OptionError α) PUnit
  | param :: params, value :: values =>
      if param.flag = .required ∧ value = none then .error (.missing param.name)
      else if param.flag = .invalid ∧ value ≠ none then .error (.forbidden param.name)
      else checkFlags params values
  | _, _ => .ok ⟨⟩

def checkDistinct : List α → List (Option α) → Except (OptionError α) PUnit
  | name :: names, some value :: values =>
      match (names.zip values).find? fun row => row.2 = some value with
      | some row => .error (.sameValue name row.1)
      | none => checkDistinct names values
  | _ :: names, none :: values => checkDistinct names values
  | _, _ => .ok ⟨⟩

def parseParams (params : List (Param α)) (barred : α → Bool) (args : List α) :
    Except (OptionError α) (List (Option α)) := do
  let names := params.map Param.name
  let values ← scanOptions names barred args (List.replicate names.length none)
  checkFlags params values
  checkDistinct names values
  return values

end Parse

/-! ## The language -/

def flatten (pairs : List (α × α)) : List α := pairs.flatMap fun pair => [pair.1, pair.2]

@[simp] theorem flatten_nil : flatten ([] : List (α × α)) = [] := rfl

@[simp] theorem flatten_cons (pair : α × α) (pairs : List (α × α)) :
    flatten (pair :: pairs) = pair.1 :: pair.2 :: flatten pairs := rfl

section Language

variable [DecidableEq α]

def assigned (names : List α) (pairs : List (α × α)) : List (Option α) :=
  names.map fun name => pairs.lookup name

structure Scannable (names : List α) (barred : α → Bool) (before pairs : List (α × α)) : Prop where
  known : ∀ pair ∈ pairs, pair.1 ∈ names
  allowed : ∀ pair ∈ pairs, barred pair.2 = false
  fresh : ∀ pair ∈ pairs, before.lookup pair.1 = none
  once : (pairs.map Prod.fst).Nodup

structure Admitted (params : List (Param α)) (barred : α → Bool) (pairs : List (α × α)) : Prop where
  known : ∀ pair ∈ pairs, pair.1 ∈ params.map Param.name
  allowed : ∀ pair ∈ pairs, barred pair.2 = false
  once : (pairs.map Prod.fst).Nodup
  required : ∀ param ∈ params, param.flag = .required → param.name ∈ pairs.map Prod.fst
  invalid : ∀ param ∈ params, param.flag = .invalid → param.name ∉ pairs.map Prod.fst
  distinct : (pairs.map Prod.snd).Nodup

/-! ## Lookup -/

theorem lookup_eq_none_iff_not_mem {pairs : List (α × α)} {name : α} :
    pairs.lookup name = none ↔ name ∉ pairs.map Prod.fst := by
  rw [List.lookup_eq_none_iff]
  simp only [bne_iff_ne, ne_eq, List.mem_map, not_exists, not_and]
  constructor
  · intro absent pair member equal
    exact absent pair member equal.symm
  · intro absent pair member equal
    exact absent pair member equal.symm

theorem lookup_eq_some_iff_mem {pairs : List (α × α)} (once : (pairs.map Prod.fst).Nodup)
    {name value : α} : pairs.lookup name = some value ↔ (name, value) ∈ pairs := by
  induction pairs with
  | nil => simp
  | cons pair pairs induction =>
      rcases pair with ⟨first, second⟩
      rw [List.map_cons, List.nodup_cons] at once
      rw [List.lookup_cons, List.mem_cons, Prod.mk.injEq]
      by_cases equal : name = first
      · subst equal
        have absent : (name, value) ∉ pairs := fun member =>
          once.1 (List.mem_map.mpr ⟨_, member, rfl⟩)
        simp [absent, eq_comm]
      · rw [beq_eq_false_iff_ne.mpr equal]
        simp [equal, induction once.2]

theorem assigned_set {names : List α} {before : List (α × α)} {arg value : α}
    (nodup : names.Nodup) (fresh : before.lookup arg = none) :
    (assigned names before).set (names.idxOf arg) (some value) =
      assigned names (before ++ [(arg, value)]) := by
  apply List.ext_getElem
  · simp [assigned]
  · intro index inside _
    have bound : index < names.length := by simpa [assigned] using inside
    rw [List.getElem_set]
    simp only [assigned, List.getElem_map, List.lookup_append, List.lookup_singleton]
    by_cases here : names.idxOf arg = index
    · subst here
      rw [if_pos rfl, List.getElem_idxOf bound, fresh]
      simp
    · have other : names[index] ≠ arg := by
        intro equal
        apply here
        rw [← equal]
        exact nodup.idxOf_getElem index bound
      simp [here, other]

theorem assigned_getD {names : List α} (pairs : List (α × α)) {name : α} (known : name ∈ names) :
    (assigned names pairs).getD (names.idxOf name) none = pairs.lookup name := by
  have bound := List.idxOf_lt_length_of_mem known
  rw [assigned, List.getD_eq_getElem?_getD, List.getElem?_map,
    List.getElem?_eq_getElem bound, List.getElem_idxOf bound]
  rfl

/-! ## The scan -/

theorem scannable_cons {names : List α} {barred : α → Bool} {before pairs : List (α × α)}
    {arg value : α} :
    Scannable names barred before ((arg, value) :: pairs) ↔
      arg ∈ names ∧ barred value = false ∧ before.lookup arg = none ∧
        Scannable names barred (before ++ [(arg, value)]) pairs := by
  constructor
  · rintro ⟨known, allowed, fresh, once⟩
    rw [List.map_cons, List.nodup_cons] at once
    rw [List.forall_mem_cons] at known allowed fresh
    refine ⟨known.1, allowed.1, fresh.1, known.2, allowed.2, ?_, once.2⟩
    intro pair member
    have different : pair.1 ≠ arg := fun equal =>
      once.1 (List.mem_map.mpr ⟨pair, member, equal⟩)
    rw [List.lookup_append, fresh.2 pair member]
    simp [different]
  · rintro ⟨argKnown, valueAllowed, argFresh, known, allowed, fresh, once⟩
    have apart : ∀ pair ∈ pairs, before.lookup pair.1 = none ∧ pair.1 ≠ arg := by
      intro pair member
      have both := fresh pair member
      rw [List.lookup_append, Option.or_eq_none_iff] at both
      simpa using both
    refine ⟨?_, ?_, ?_, ?_⟩
    · exact List.forall_mem_cons.mpr ⟨argKnown, known⟩
    · exact List.forall_mem_cons.mpr ⟨valueAllowed, allowed⟩
    · exact List.forall_mem_cons.mpr ⟨argFresh, fun pair member => (apart pair member).1⟩
    · rw [List.map_cons, List.nodup_cons]
      refine ⟨fun member => ?_, once⟩
      rcases List.mem_map.mp member with ⟨pair, inside, equal⟩
      exact (apart pair inside).2 equal

/-- The readings of a list with two items in front: the items are a pair that may stand
there, and the rest has a reading behind it. -/
theorem reading_cons {names : List α} {barred : α → Bool} {before : List (α × α)}
    {arg value : α} {args : List α} {values : List (Option α)} :
    (∃ pairs, arg :: value :: args = flatten pairs ∧ Scannable names barred before pairs ∧
        values = assigned names (before ++ pairs)) ↔
      arg ∈ names ∧ barred value = false ∧ before.lookup arg = none ∧
        ∃ pairs, args = flatten pairs ∧
          Scannable names barred (before ++ [(arg, value)]) pairs ∧
          values = assigned names (before ++ [(arg, value)] ++ pairs) := by
  constructor
  · rintro ⟨pairs, equal, scannable, rfl⟩
    cases pairs with
    | nil => cases equal
    | cons pair pairs =>
        simp only [flatten_cons, List.cons.injEq] at equal
        rcases equal with ⟨rfl, rfl, tail⟩
        rcases scannable_cons.mp scannable with ⟨known, allowed, fresh, rest⟩
        exact ⟨known, allowed, fresh, pairs, tail, rest, by simp⟩
  · rintro ⟨known, allowed, fresh, pairs, rfl, rest, rfl⟩
    exact ⟨(arg, value) :: pairs, rfl, scannable_cons.mpr ⟨known, allowed, fresh, rest⟩, by simp⟩

theorem scanOptions_eq_ok_iff {names : List α} (nodup : names.Nodup) (barred : α → Bool) :
    ∀ (args : List α) (before : List (α × α)) (values : List (Option α)),
      scanOptions names barred args (assigned names before) = .ok values ↔
        ∃ pairs, args = flatten pairs ∧ Scannable names barred before pairs ∧
          values = assigned names (before ++ pairs)
  | [], before, values => by
      rw [scanOptions, Except.ok.injEq]
      constructor
      · rintro rfl
        exact ⟨[], rfl, ⟨by simp, by simp, by simp, by simp⟩, by rw [List.append_nil]⟩
      · rintro ⟨pairs, empty, -, rfl⟩
        cases pairs with
        | nil => rw [List.append_nil]
        | cons pair pairs => cases empty
  | [arg], before, values => by
      rw [scanOptions]
      constructor
      · intro success
        split at success <;> cases success
      · rintro ⟨pairs, single, -⟩
        cases pairs with
        | nil => cases single
        | cons pair pairs => cases single
  | arg :: value :: args, before, values => by
      have induction := scanOptions_eq_ok_iff nodup barred args (before ++ [(arg, value)]) values
      rw [scanOptions, reading_cons, ← induction]
      by_cases known : arg ∈ names
      · rw [if_neg (List.idxOf_lt_length_of_mem known).ne, assigned_getD _ known]
        cases allowed : barred value with
        | true => simp
        | false =>
            by_cases fresh : before.lookup arg = none
            · rw [if_neg (by simp), if_neg (not_not.mpr fresh), assigned_set nodup fresh]
              simp [known, fresh]
            · simp [fresh]
      · rw [if_pos (List.idxOf_eq_length known)]
        simp [known]

end Language

/-! ## The checks -/

theorem checkFlags_eq_ok_iff (value : α → Option α) : ∀ (params : List (Param α)),
    checkFlags params (params.map fun param => value param.name) = .ok ⟨⟩ ↔
      ∀ param ∈ params, (param.flag = .required → value param.name ≠ none) ∧
        (param.flag = .invalid → value param.name = none)
  | [] => by simp [checkFlags]
  | param :: params => by
      have induction := checkFlags_eq_ok_iff value params
      rw [List.map_cons, checkFlags, List.forall_mem_cons, ← induction]
      by_cases missing : param.flag = .required ∧ value param.name = none
      · rw [if_pos missing]
        simp [missing]
      · rw [if_neg missing]
        by_cases forbidden : param.flag = .invalid ∧ value param.name ≠ none
        · rw [if_pos forbidden]
          simp [forbidden]
        · rw [if_neg forbidden]
          have passed : (param.flag = .required → value param.name ≠ none) ∧
              (param.flag = .invalid → value param.name = none) := by
            constructor
            · intro flag none
              exact missing ⟨flag, none⟩
            · intro flag
              by_contra some
              exact forbidden ⟨flag, some⟩
          rw [and_iff_right passed]

theorem checkDistinct_eq_ok_iff [DecidableEq α] (value : α → Option α) : ∀ (names : List α),
    checkDistinct names (names.map value) = .ok ⟨⟩ ↔
      names.Pairwise fun name other => ∀ v, value name = some v → value other ≠ some v
  | [] => by simp [checkDistinct]
  | name :: names => by
      have induction := checkDistinct_eq_ok_iff value names
      rw [List.map_cons, List.pairwise_cons, ← induction]
      cases here : value name with
      | none => simp [checkDistinct]
      | some v =>
          rw [checkDistinct]
          have rows : names.zip (names.map value) = names.map fun name => (name, value name) :=
            List.map_prod_left_eq_zip.symm
          rw [rows]
          cases found : (names.map fun name => (name, value name)).find? fun row =>
              row.2 = some v with
          | some row =>
              have holds := List.find?_some found
              rcases List.mem_map.mp (List.mem_of_find?_eq_some found) with ⟨other, member, rfl⟩
              simp only [decide_eq_true_eq] at holds
              simp only [reduceCtorEq, false_iff, not_and]
              intro apart
              exact absurd holds (apart other member v rfl)
          | none =>
              rw [List.find?_eq_none] at found
              have apart : ∀ other ∈ names, ∀ v', some v = some v' → value other ≠ some v' := by
                rintro other member v' ⟨⟩ equal
                exact found _ (List.mem_map.mpr ⟨other, member, rfl⟩) (by simpa using equal)
              exact (and_iff_right apart).symm

/-! ## The parser -/

section Parser

variable [DecidableEq α] {params : List (Param α)} {barred : α → Bool} {pairs : List (α × α)}

theorem pairwise_lookup_iff {names : List α} (nodup : names.Nodup)
    (known : ∀ pair ∈ pairs, pair.1 ∈ names) (once : (pairs.map Prod.fst).Nodup) :
    (names.Pairwise fun name other => ∀ v, pairs.lookup name = some v →
        pairs.lookup other ≠ some v) ↔ (pairs.map Prod.snd).Nodup := by
  rw [List.nodup_map_iff_inj_on once.of_map]
  constructor
  · rintro apart ⟨name, v⟩ member ⟨other, v'⟩ member' equal
    by_contra different
    have names : name ≠ other := by
      rintro rfl
      exact different (Prod.ext rfl equal)
    have symmetric : Std.Symm fun name other : α => ∀ v, pairs.lookup name = some v →
        pairs.lookup other ≠ some v :=
      ⟨fun _ _ holds v first second => holds v second first⟩
    have here := (lookup_eq_some_iff_mem once).mpr member
    have there := (lookup_eq_some_iff_mem once).mpr member'
    rw [show v' = v from equal.symm] at there
    exact apart.forall (known _ member) (known _ member') names v here there
  · intro injective
    refine nodup.pairwise_of_forall_ne fun name _ other _ different v here there => ?_
    have member := (lookup_eq_some_iff_mem once).mp here
    have member' := (lookup_eq_some_iff_mem once).mp there
    exact different (congrArg Prod.fst (injective _ member _ member' rfl))

theorem admitted_iff (nodup : (params.map Param.name).Nodup) :
    Admitted params barred pairs ↔
      Scannable (params.map Param.name) barred [] pairs ∧
      checkFlags params (assigned (params.map Param.name) pairs) = .ok ⟨⟩ ∧
      checkDistinct (params.map Param.name) (assigned (params.map Param.name) pairs) = .ok ⟨⟩ := by
  have flags : assigned (params.map Param.name) pairs =
      params.map fun param => pairs.lookup param.name := by
    rw [assigned, List.map_map]
    rfl
  rw [flags, checkFlags_eq_ok_iff (fun name => pairs.lookup name), ← flags, assigned,
    checkDistinct_eq_ok_iff]
  constructor
  · rintro ⟨known, allowed, once, required, invalid, distinct⟩
    refine ⟨⟨known, allowed, fun _ _ => rfl, once⟩, ?_,
      (pairwise_lookup_iff nodup known once).mpr distinct⟩
    intro param member
    rw [lookup_eq_none_iff_not_mem, ne_eq, lookup_eq_none_iff_not_mem, not_not]
    exact ⟨required param member, invalid param member⟩
  · rintro ⟨⟨known, allowed, -, once⟩, flags, distinct⟩
    refine ⟨known, allowed, once, ?_, ?_, (pairwise_lookup_iff nodup known once).mp distinct⟩
    · intro param member flag
      have present := (flags param member).1 flag
      rwa [ne_eq, lookup_eq_none_iff_not_mem, not_not] at present
    · intro param member flag
      exact lookup_eq_none_iff_not_mem.mp ((flags param member).2 flag)

theorem except_bind_eq_ok_iff {ε β γ : Type u} {first : Except ε β} {second : β → Except ε γ}
    {result : γ} :
    first >>= second = .ok result ↔ ∃ middle, first = .ok middle ∧ second middle = .ok result := by
  cases first with
  | error error => simp [bind, Except.bind]
  | ok middle => simp [bind, Except.bind]

/-- The parser accepts exactly the flattened lists of admitted pairs. -/
theorem parseParams_eq_ok_iff (nodup : (params.map Param.name).Nodup) (args : List α)
    (values : List (Option α)) :
    parseParams params barred args = .ok values ↔
      ∃ pairs, args = flatten pairs ∧ Admitted params barred pairs ∧
        values = assigned (params.map Param.name) pairs := by
  have start : List.replicate (params.map Param.name).length none =
      assigned (params.map Param.name) ([] : List (α × α)) := List.map_const'.symm
  simp only [parseParams, start, except_bind_eq_ok_iff, scanOptions_eq_ok_iff nodup,
    List.nil_append]
  constructor
  · rintro ⟨cells, ⟨pairs, rfl, scannable, rfl⟩, _, flags, _, distinct, returned⟩
    cases returned
    exact ⟨pairs, rfl, (admitted_iff nodup).mpr ⟨scannable, flags, distinct⟩, rfl⟩
  · rintro ⟨pairs, rfl, admitted, rfl⟩
    rcases (admitted_iff nodup).mp admitted with ⟨scannable, flags, distinct⟩
    exact ⟨_, ⟨pairs, rfl, scannable, rfl⟩, ⟨⟩, flags, ⟨⟩, distinct, rfl⟩

end Parser

end Penglai
