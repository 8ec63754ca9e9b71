import Yogigen.RowOrder
import Yogigen.UniqueScan

/-!
# Tables that Cannot Fail a Call

`YogiGen_generate` returns NULL when `getrandom` fails, and when a format asks for what the
tables do not have: a reserved flag, an index that is not found. `Furnished` says of every
descriptor of every format that the tables have what it asks for; then only `getrandom` is left.

## Main results

* `Furnished.null_iff`: a call on furnished tables returns NULL exactly if a draw failed.
* `Furnished.faultless`: it divides by no zero and stays in its arrays.
* `furnished_null_iff`: the same for every call of a run.
-/

open Printf Supply Supply.Reader Transition

namespace Yogigen

/-- The tables have what a slot asks for. -/
structure Furnishes (y : YogiGen) (d : Descriptor) : Prop where
  filled : (y.table d.type).entries ≠ []
  plain : d.flag.isReserved = false
  verb : d.flag.isPostpos = true → d.type = .verb ∧
    0 < border y.verbs.entries ∧ border y.verbs.entries < y.verbs.entries.length

instance (y : YogiGen) (d : Descriptor) : Decidable (Furnishes y d) :=
  decidable_of_iff ((y.table d.type).entries ≠ [] ∧ d.flag.isReserved = false ∧
    (d.flag.isPostpos = true → d.type = .verb ∧
      0 < border y.verbs.entries ∧ border y.verbs.entries < y.verbs.entries.length))
    ⟨fun h => ⟨h.1, h.2.1, h.2.2⟩, fun h => ⟨h.filled, h.plain, h.verb⟩⟩

/-- The tables have what the formats ask for. -/
structure Furnished (y : YogiGen) : Prop where
  sorted : Sorted y.verbs.entries
  formats : y.formats.entries ≠ []
  slots : ∀ f ∈ y.formats.entries, 0 < f.count.toNat ∧ f.count.toNat ≤ 8 ∧
    ∀ m < f.count.toNat, Furnishes y (descriptorAt f.data m)

instance (y : YogiGen) : Decidable (Furnished y) :=
  decidable_of_iff (Sorted y.verbs.entries ∧ y.formats.entries ≠ [] ∧
    ∀ f ∈ y.formats.entries, 0 < f.count.toNat ∧ f.count.toNat ≤ 8 ∧
      ∀ m < f.count.toNat, Furnishes y (descriptorAt f.data m))
    ⟨fun h => ⟨h.1, h.2.1, h.2.2⟩, fun h => ⟨h.sorted, h.formats, h.slots⟩⟩

/-! ### Selections that do not fail -/

section

variable {y : YogiGen} {draws : List (Option UInt16)}

/-- The retry loop gives up only when a draw fails. -/
theorem uniqueLoop_ne_errorIdx {limit resId id : UInt16} {usedIds : Fin 4 → Int16}
    (h0 : limit ≠ 0) (hres : resId ≠ errorIdx) (hdraws : none ∉ draws)
    (h : (loop (uniqueBody limit usedIds) resId).Yields draws id) : id ≠ errorIdx := by
  induction draws generalizing resId with
  | nil =>
      rcases yields_loop_iff.mp h with hexit | ⟨u, v, s', hnil, hne, -, -⟩
      · rcases yields_uniqueBody_iff.mp hexit with ⟨-, -, hr⟩ | ⟨-, ⟨hn, -⟩ | ⟨rnd, hn, -⟩⟩
        · obtain rfl := Sum.inr.inj hr
          exact hres
        · exact absurd hn (by simp)
        · exact absurd hn (by simp)
      · exact absurd (List.append_eq_nil_iff.mp hnil.symm).1 hne
  | cons draw draws ih =>
      obtain ⟨hdraw, hlater⟩ := not_or.mp (mt List.mem_cons.mpr hdraws)
      rcases yields_loop_iff.mp h with hexit | ⟨u, v, s', huv, -, hbody, hrest⟩
      · rcases yields_uniqueBody_iff.mp hexit with ⟨-, hn, -⟩ | ⟨-, ⟨hn, -⟩ | ⟨rnd, -, hr⟩⟩
        · exact absurd hn (by simp)
        · exact absurd (List.cons.inj hn).1.symm hdraw
        · exact absurd hr (by simp)
      · rcases yields_uniqueBody_iff.mp hbody with ⟨-, -, hr⟩ | ⟨-, ⟨-, hr⟩ | ⟨rnd, rfl, hr⟩⟩
        · exact absurd hr (by simp)
        · exact absurd hr (by simp)
        · obtain ⟨rfl, rfl⟩ := List.cons.inj huv
          obtain rfl := Sum.inl.inj hr
          exact ih (mod_ne_errorIdx rnd h0) hlater hrest

/-- The post-position flags give an index of the verbs. -/
theorem postpos_ne_errorIdx {limit id : UInt16} {flag : FstrFlag} (hsorted : Sorted y.verbs.entries)
    (hpos : 0 < border y.verbs.entries) (hlt : border y.verbs.entries < y.verbs.entries.length)
    (hlimit : limit = y.verbs.count) (hdraws : none ∉ draws)
    (h : (randomPostpos y limit flag).Yields draws id) : id ≠ errorIdx := by
  subst hlimit
  obtain ⟨hf, hb⟩ := hsorted.scans hpos hlt
  have hnext : UInt16.ofNat (border y.verbs.entries - 1) + 1 = .ofNat (border y.verbs.entries) := by
    rw [← UInt16.ofNat_one, ← UInt16.ofNat_add, Nat.sub_add_cancel hpos]
  simp only [randomPostpos, hf, Table.toNat_count, hb, hnext] at h
  obtain ⟨rnd, rest, rfl, h⟩ := yields_next_bind_iff.mp h
  cases rnd with
  | none => exact absurd List.mem_cons_self hdraws
  | some rnd =>
      obtain ⟨-, rfl⟩ := yields_pure_iff.mp h
      have hid := postposId_lt hlt flag rnd
      have hsmall := y.verbs.small
      intro heq
      rw [heq, show errorIdx.toNat = 65535 from rfl] at hid
      omega

/-- `random_expression_id` gives up only when a draw fails. -/
theorem randomExpressionId_ne_errorIdx {type : ExprType} {flag : FstrFlag}
    {usedIds : Fin 4 → Int16} {id : UInt16} (hsorted : Sorted y.verbs.entries)
    (hflag : flag ≠ .indefArt ∧ flag.isReserved = false)
    (hverb : flag.isPostpos = true → type = .verb ∧
      0 < border y.verbs.entries ∧ border y.verbs.entries < y.verbs.entries.length)
    (hdraws : none ∉ draws) (h : (randomExpressionId y type flag usedIds).Yields draws id) :
    id ≠ errorIdx := by
  obtain ⟨rnd, rest, rfl, h₁⟩ := yields_next_bind_iff.mp h
  cases rnd with
  | none => exact absurd List.mem_cons_self hdraws
  | some rnd =>
      have hrest : none ∉ rest := fun hmem => hdraws (List.mem_cons_of_mem _ hmem)
      dsimp only at h₁
      split_ifs at h₁ with h0
      · exact absurd h₁ not_yields_fail
      · cases flag with
        | noFlags =>
            obtain ⟨-, rfl⟩ := yields_pure_iff.mp h₁
            exact mod_ne_errorIdx rnd h0
        | unique => exact uniqueLoop_ne_errorIdx h0 (mod_ne_errorIdx rnd h0) hrest h₁
        | postposCept | postposAll | postposObj =>
            obtain ⟨rfl, hpos, hlt⟩ := hverb rfl
            exact postpos_ne_errorIdx hsorted hpos hlt rfl hrest h₁
        | indefArt => exact absurd rfl hflag.1
        | flag6 | flag7 => exact absurd hflag.2 (by decide)

/-- A slot that is furnished gets an expression. -/
theorem chooseExpression_ne_none {d : Descriptor} {s : SubstitutionData} {r : Option UInt16}
    (hsorted : Sorted y.verbs.entries) (hd : Furnishes y d) (hdraws : none ∉ draws)
    (h : (chooseExpression y d s).Yields draws r) : ∃ id, r = some id ∧ id ≠ errorIdx := by
  have hcall : ∀ (flag : FstrFlag) (usedIds : Fin 4 → Int16),
      flag ≠ .indefArt ∧ flag.isReserved = false → (flag.isPostpos = true → flag = d.flag) →
      (randomExpressionId y d.type flag usedIds >>= fun exprI => pure (some exprI)).Yields draws r →
      ∃ id, r = some id ∧ id ≠ errorIdx := by
    intro flag usedIds hflag hsame h
    obtain ⟨id, hid, rfl⟩ := yields_bind_pure_iff.mp h
    refine ⟨id, rfl, randomExpressionId_ne_errorIdx hsorted hflag (fun hpost => ?_) hdraws hid⟩
    exact hd.verb (hsame hpost ▸ hpost)
  have hplain := hd.plain
  rw [chooseExpression] at h
  cases hflag : d.flag with
  | noFlags | indefArt =>
      rw [hflag] at h
      exact hcall .noFlags _ (by decide) (fun hpost => absurd hpost (by decide)) h
  | unique =>
      rw [hflag] at h
      exact hcall .unique _ (by decide) (fun hpost => absurd hpost (by decide)) h
  | postposCept | postposAll | postposObj =>
      simp only [hflag] at h
      exact hcall _ _ (by decide) (fun _ => hflag.symm) h
  | flag6 | flag7 =>
      rw [hflag] at hplain
      exact absurd hplain (by decide)

/-- **The positions of a format** are all assigned. -/
theorem processLoop_ne_none {data : UInt64} {n i : ℕ} {s : SubstitutionData}
    {r : Option SubstitutionData} (hsorted : Sorted y.verbs.entries)
    (hslots : ∀ m < i + n, Furnishes y (descriptorAt data m)) (hdraws : none ∉ draws)
    (h : (processLoop y data n i s).Yields draws r) : r ≠ none := by
  induction n generalizing i s draws with
  | zero =>
      obtain ⟨-, rfl⟩ := yields_pure_iff.mp h
      exact Option.some_ne_none s
  | succ n ih =>
      rw [processLoop] at h
      split_ifs at h with hi
      · obtain ⟨u, v, step, rfl, hstep, hrest⟩ := yields_bind_iff.mp h
        obtain ⟨hu, hv⟩ := not_or.mp (mt List.mem_append.mpr hdraws)
        have hsome : ∃ s', step = some s' := by
          rw [processStep] at hstep
          split_ifs at hstep with hslot
          · obtain ⟨u₁, u₂, chosen, rfl, hchosen, hstep⟩ := yields_bind_iff.mp hstep
            obtain ⟨id, rfl, hid⟩ := chooseExpression_ne_none hsorted (hslots i (by omega))
              (fun hmem => hu (List.mem_append_left _ hmem)) hchosen
            simp only [if_neg hid] at hstep
            exact ⟨_, (yields_pure_iff.mp hstep).2⟩
          · exact ⟨_, (yields_pure_iff.mp hstep).2⟩
        obtain ⟨s', rfl⟩ := hsome
        exact ih (fun m hm => hslots m (by omega)) hv hrest
      · exact absurd h not_yields_fail

/-- Everything that is selected is found again. -/
theorem Furnished.complete (hy : Furnished y) {f : FormatString} {s : SubstitutionData}
    (hf : f ∈ y.formats.entries) (h : Selects y f.data 0 .build f.count.toNat draws s) :
    Complete y f s := by
  obtain ⟨hpos, hcount, hslots⟩ := hy.slots f hf
  obtain ⟨σ, hσ, rfl⟩ := (selects_iff_deals hcount).mp h
  refine ⟨hpos, fun i hi => hσ.admissible.found hy.sorted (fun m hm _ hpost hne => ?_) hi⟩
  exact absurd ((hslots m hm).verb hpost).1 hne

/-- **A call whose draws succeed** makes a phrase. -/
theorem Furnished.succeeds (hy : Furnished y) {r : Option (Bytes × YogiGen)}
    (hdraws : none ∉ draws) (h : (composePhrase y).Yields draws r) : Succeeds y draws := by
  have h0 : y.formats.count ≠ 0 := fun h0 => hy.formats (y.formats.count_eq_zero_iff.mp h0)
  obtain ⟨u, v, fs, rfl, hfs, h⟩ := yields_bind_iff.mp h
  obtain ⟨hu, hv⟩ := not_or.mp (mt List.mem_append.mpr hdraws)
  obtain ⟨rnd, rest, rfl, hfs₁⟩ := yields_next_bind_iff.mp hfs
  cases rnd with
  | none => exact absurd List.mem_cons_self hu
  | some rnd =>
      dsimp only at hfs₁
      rw [if_neg h0] at hfs₁
      obtain ⟨rfl, rfl⟩ := yields_pure_iff.mp hfs₁
      have hlt := UInt16.lt_iff_toNat_lt.mp (UInt16.mod_lt rnd (UInt16.pos_iff_ne_zero.mpr h0))
      rw [Table.toNat_count] at hlt
      have hget : getFormats y (rnd % y.formats.count) =
          some y.formats.entries[(rnd % y.formats.count).toNat] := by
        rw [getFormats, if_pos (UInt16.mod_lt rnd (UInt16.pos_iff_ne_zero.mpr h0)),
          List.getElem?_eq_getElem hlt]
      have hmem : y.formats.entries[(rnd % y.formats.count).toNat] ∈ y.formats.entries :=
        List.getElem_mem hlt
      rw [hget] at h
      generalize y.formats.entries[(rnd % y.formats.count).toNat] = f at h hget hmem
      obtain ⟨v₁, v₂, data, rfl, hdata, h⟩ := yields_bind_iff.mp h
      have hv₁ : none ∉ v₁ := fun hmem => hv (List.mem_append_left _ hmem)
      have hsome : ∃ s, data = some s := by
        obtain ⟨w₁, w₂, r', rfl, hloop, hr'⟩ := yields_bind_iff.mp hdata
        have hne := processLoop_ne_none hy.sorted
          (fun m hm => (hy.slots f hmem).2.2 m (by omega))
          (fun hmem => hv₁ (List.mem_append_left _ hmem)) hloop
        obtain ⟨s, rfl⟩ := Option.ne_none_iff_exists'.mp hne
        exact ⟨_, (yields_pure_iff.mp hr').2⟩
      obtain ⟨s, rfl⟩ := hsome
      obtain ⟨s, hsel, rfl⟩ := yields_processFormats_iff.mp hdata
      obtain ⟨rfl, -⟩ := yields_ofExcept_iff.mp h
      rw [List.append_nil]
      exact ⟨f, s, .intro h0 hget hsel, hy.complete hmem hsel⟩

/-! ### Draws of phrases -/

/-- A search that has settled has seen no failed draw. -/
theorem Settles.none_notMem {limit id id' : UInt16} {usedIds : Fin 4 → Int16}
    (h : Settles limit usedIds id draws id') : none ∉ draws := by
  induction h with
  | keep => exact List.not_mem_nil
  | retry _ _ ih => simpa using ih

/-- Nor has a choice that has been made. -/
theorem Picks.none_notMem {type : ExprType} {usedIds : Fin 4 → Int16} {flag : FstrFlag}
    {id : UInt16} (h : Picks y type usedIds flag draws id) : none ∉ draws := by
  cases h with
  | plain => simp
  | unique _ hsettles => simpa using hsettles.none_notMem
  | postpos => simp

/-- Nor has a selection that is complete. -/
theorem Selects.none_notMem {data : UInt64} {i n : ℕ} {s s' : SubstitutionData}
    (h : Selects y data i s n draws s') : none ∉ draws := by
  induction h with
  | nil => exact List.not_mem_nil
  | cons _ hadv _ ih =>
      refine fun hmem => (List.mem_append.mp hmem).elim ?_ ih
      cases hadv with
      | fresh _ hpick _ => exact hpick.none_notMem
      | again => exact List.not_mem_nil

/-- No draw behind a phrase has failed. -/
theorem Succeeds.none_notMem (h : Succeeds y draws) : none ∉ draws := by
  obtain ⟨f, s, hchooses, -⟩ := h
  cases hchooses with
  | intro _ _ hsel => simpa using hsel.none_notMem

/-- **What a call returns** on furnished tables: NULL exactly if a draw failed. -/
theorem Furnished.null_iff (hy : Furnished y) {r : Option (Bytes × YogiGen)}
    (h : (composePhrase y).Yields draws r) : r = none ↔ none ∈ draws := by
  have hiff := succeeds_of_yields h
  constructor
  · intro hr
    by_contra hdraws
    exact hiff.mp (hy.succeeds hdraws h) hr
  · intro hdraws
    by_contra hr
    exact (hiff.mpr hr).none_notMem hdraws

/-! ### Furnished tables stay so -/

/-- A slot that the tables furnish is defined. -/
theorem Furnishes.slotDefined {d : Descriptor} (hd : Furnishes y d)
    (hsorted : Sorted y.verbs.entries) : SlotDefined y d := by
  refine ⟨fun _ => hd.filled, fun hpost => ?_⟩
  obtain ⟨htype, hpos, hlt⟩ := hd.verb hpost
  obtain ⟨hf, hb⟩ := hsorted.scans hpos hlt
  rw [htype]
  obtain ⟨-, hstop⟩ := (backwardScan_isSome_iff _ _).mp ⟨_, hb⟩
  rw [Nat.sub_add_cancel (by omega)] at hstop
  exact ⟨(forwardScan_isSome_iff _ _).mp ⟨_, hf⟩, le_rfl, hstop⟩

/-- **Nothing is undefined** in a call on furnished tables. -/
theorem Furnished.faultless (hy : Furnished y) : (generate (.loaded y)).Faultless := by
  rw [generate_law_iff faultless_law, composePhrase_law_iff faultless_law]
  refine ⟨hy.formats, fun f hf => (processFormats_law_iff faultless_law).mpr ?_⟩
  rintro m s ⟨hm, -⟩
  obtain ⟨-, hle, hslots⟩ := hy.slots f hf
  refine ⟨by omega, fun _ => (chooseExpression_law_iff faultless_law).mpr ?_⟩
  exact ⟨(hslots m hm).slotDefined hy.sorted, fun _ _ => loop_uniqueBody_faultless _ _ _⟩

/-- Only the flags of the entries and the formats matter. -/
theorem Furnished.of_flags {y' : YogiGen} (hy : Furnished y)
    (hflags : ∀ type, (y'.table type).entries.map (·.flags) = (y.table type).entries.map (·.flags))
    (hformats : ∀ f, f ∈ y'.formats.entries ↔ f ∈ y.formats.entries) : Furnished y' := by
  have hsorted := sorted_iff_of_flags (hflags .verb)
  have hborder := border_eq_of_flags (hflags .verb)
  have hlen : ∀ type, (y'.table type).entries.length = (y.table type).entries.length := by
    intro type
    simpa using congrArg List.length (hflags type)
  have hverbs := hlen .verb
  simp only [YogiGen.table] at hsorted hborder hverbs
  refine ⟨hsorted.mpr hy.sorted, fun hnil => hy.formats ?_, fun f hf => ?_⟩
  · refine List.eq_nil_iff_forall_not_mem.mpr fun f hf => ?_
    have hf' := (hformats f).mpr hf
    rw [hnil] at hf'
    exact List.not_mem_nil hf'
  · obtain ⟨hpos, hle, hslots⟩ := hy.slots f ((hformats f).mp hf)
    refine ⟨hpos, hle, fun m hm => ?_⟩
    obtain ⟨hfilled, hplain, hverb⟩ := hslots m hm
    refine ⟨fun hnil => hfilled ?_, hplain, ?_⟩
    · have htable := hlen (descriptorAt f.data m).type
      rw [hnil] at htable
      exact List.length_eq_zero_iff.mp htable.symm
    · rw [hborder, hverbs]
      exact hverb

/-- Prefixes take nothing away. -/
theorem Prefixed.furnished {y' : YogiGen} (h : Prefixed y y') (hy : Furnished y) :
    Furnished y' :=
  hy.of_flags h.map_flags fun f => by rw [h.formats]

/-- All loads of a database are furnished if one is. -/
theorem Loads.furnished {db : Database} {y' : YogiGen} (h : Loads db y) (h' : Loads db y')
    (hexpr : ∀ type, (db.rows type).length < 65536) (hfrmt : db.formats.length < 65536)
    (hy : Furnished y) : Furnished y' :=
  hy.of_flags (fun type => (h.perm h' (hexpr type)).2) fun f =>
    (h'.formats_iff hfrmt f).trans (h.formats_iff hfrmt f).symm

end

/-- An object with furnished tables, or one that has been released. -/
def Stocked (o : Object) : Prop :=
  ∀ y, o.contents = some y → Furnished y

/-- **One call** on a stocked object. -/
theorem Stocked.call {o o' : Object} {call : GenCall} (ho : Stocked o) (h : Calls o call o') :
    (call.phrase = none ↔ none ∈ call.draws) ∧ Stocked o' := by
  obtain ⟨y, hc, ⟨out, y', hr, rfl, hy⟩ | ⟨hr, rfl, hy⟩⟩ := generate_cases h
  · have hiff := (ho y hc).null_iff hy
    refine ⟨?_, fun y₁ hy₁ => ?_⟩
    · rw [hr, ← hiff]
      simp
    · obtain rfl := Option.some.inj hy₁
      exact (exists_draws_iff.mp ⟨_, hy⟩).prefixed.furnished (ho y hc)
  · have hiff := (ho y hc).null_iff hy
    refine ⟨?_, fun y₁ hy₁ => by cases hy₁⟩
    rw [hr, ← hiff]
    simp

/-- **A run of calls** on furnished tables: a call returns NULL, and releases the object, exactly
if a draw failed in it. -/
theorem furnished_null_iff {y : YogiGen} (hy : Furnished y) {trace : List (GenCall × Object)}
    (hrun : Run Calls (.loaded y) trace) :
    ∀ q ∈ trace, q.1.phrase = none ↔ none ∈ q.1.draws := by
  intro q hq
  have hstart : Stocked (.loaded y) := by
    rintro _ ⟨⟩
    exact hy
  obtain ⟨o, ho, hcall⟩ := hrun.exists_step (fun _ _ _ ho hcall => (ho.call hcall).2) hstart hq
  exact (ho.call hcall).1

end Yogigen
