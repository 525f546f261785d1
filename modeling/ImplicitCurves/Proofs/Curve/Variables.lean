import ImplicitCurves.Proofs.Curve.Preparation
import ImplicitCurves.Proofs.Program.Symbols
import ImplicitCurves.Proofs.Tree.Forming

/-!
# Variables of curves

A curve that has been prepared reads only variables that have a value when it is sampled, and a sweep
is left out only if what it searches does not depend on the coordinate across: main statement
`Curve.skippedSweep_harmless`.
-/

namespace ImplicitCurves

section Slots

variable {α : Type} [Scalar α] {p : Program} {name : Char}

theorem slotOf_eq_none_iff {symbols : List Char} : slotOf symbols name = none ↔ name ∉ symbols := by
  rw [slotOf, List.findIdx?_eq_none_iff]
  exact ⟨fun h hmem => of_decide_eq_false (h name hmem) rfl,
    fun h other hother => decide_eq_false fun heq => h (heq ▸ hother)⟩

namespace Program

theorem bind_set_of_not_mem (h : name ∉ p.symbols) (env : Environment α) (x : α) :
    p.bind (env.set name x) = p.bind env := by
  refine bind_congr fun other hother => ?_
  have hne : other ≠ name := fun heq => h (heq ▸ hother)
  rw [Environment.value?_set, if_neg hne]

/-- To give a variable a value is to change its slot. -/
theorem bind_set (hnodup : p.symbols.Nodup) (env : Environment α) (x : α) :
    p.bind (env.set name x) = p.setVariable (p.bind env) name x := by
  unfold setVariable slot
  cases hslot : slotOf p.symbols name with
  | none => exact bind_set_of_not_mem (slotOf_eq_none_iff.1 hslot) env x
  | some slot =>
    have hname : p.symbols[slot]? = some name := getElem?_of_slotOf hslot
    have hlt : slot < p.symbols.length := (List.getElem?_eq_some_iff.1 hname).1
    have hvalues : (p.symbols.map fun other => ((env.set name x).value? other).getD Scalar.undefined) =
        (p.symbols.map fun other => (env.value? other).getD Scalar.undefined).set slot x := by
      refine List.ext_getElem? fun i => ?_
      rw [List.getElem?_set, List.length_map, List.getElem?_map, List.getElem?_map]
      by_cases hi : slot = i
      · rw [if_pos hi, if_pos hlt, ← hi, hname, Option.map_some, Environment.value?_set, if_pos rfl,
          Option.getD_some]
      · rw [if_neg hi]
        cases hother : p.symbols[i]? with
        | none => rfl
        | some other =>
          have hne : other ≠ name := by
            rintro rfl
            exact hi ((List.getElem?_inj hlt hnodup).1 (hname.trans hother.symm))
          rw [Option.map_some, Option.map_some, Environment.value?_set, if_neg hne]
    rw [bind, hvalues]
    exact (List.setIfInBounds_toArray ..).symm

/-- What a sweep searches, by the value of the program. -/
theorem asFunction_eq_eval (hnodup : p.symbols.Nodup) (env : Environment α) (cross : Char)
    (a b : α) :
    p.asFunction (p.setVariable (p.bind env) name a) (p.slot cross) b =
      p.eval ((env.set name a).set cross b) := by
  have hslot : ∀ slots : Array α, p.asFunction slots (p.slot cross) b =
      p.run (p.setVariable slots cross b) := by
    intro slots
    unfold asFunction setVariable
    cases p.slot cross <;> rfl
  rw [hslot, eval_eq, bind_set hnodup, bind_set hnodup]

/-- The value of a program does not depend on a variable that it has no slot for. -/
theorem eval_set_of_not_mem (h : name ∉ p.symbols) (env : Environment α) (x : α) :
    p.eval (env.set name x) = p.eval env := by
  rw [eval_eq, bind_set_of_not_mem h, eval_eq]

end Program

end Slots

theorem Environment.isSome_value? {α : Type} (env : Environment α) (name : Char) :
    (env.value? name).isSome = env.contains name := by
  rw [value?, Option.isSome_map, Directory.contains]

namespace Curve

variable {source : List Char} {d : Definitions} {c : Curve} {name : Char}

/-- Whether the sweep along an axis is carried out, which is if the curve uses the other axis. -/
def sweeps (c : Curve) : Axis → Bool
  | .x => c.usesY
  | .y => c.usesX

theorem sample_eq_ok_iff {v : Viewport Float} {o : SampleOptions Float} {schedule : Schedule}
    {samples : PointBuffer Float × PointBuffer Float} : c.sample v o schedule = .ok samples ↔
      c.sweep .x (c.sweeps .x) v o schedule = .ok samples.1 ∧
        c.sweep .y (c.sweeps .y) v o schedule = .ok samples.2 := by
  have hsample : c.sample v o schedule = do
      let xSweep ← c.sweep .x (c.sweeps .x) v o schedule
      let ySweep ← c.sweep .y (c.sweeps .y) v o schedule
      return (xSweep, ySweep) := rfl
  rw [hsample]
  cases c.sweep .x (c.sweeps .x) v o schedule <;> cases c.sweep .y (c.sweeps .y) v o schedule <;>
    simp [bind, Except.bind, pure, Except.pure, Prod.ext_iff]

/-- The symbols of the program are variables of the linked equation. -/
theorem mem_freeVariablesLinked_of_mem_symbols {linked : Equation}
    (h : name ∈ (ofLinked d linked).program.symbols) : name ∈ linked.freeVariablesLinked :=
  (linked.mem_freeVariablesLinked_form name).1 (linked.form.symbolsAmong_program.subset name h)

theorem nodup_symbols (h : ofText source d = .ok c) : c.program.symbols.Nodup := by
  obtain ⟨_, linked, -, -, -, rfl⟩ := ofText_eq_ok_iff.1 h
  exact linked.form.symbolsAmong_program.nodup

/-- Each symbol is a coordinate or has a value in the definitions. -/
theorem isSupported_of_mem_symbols (h : ofText source d = .ok c) (hname : name ∈ c.program.symbols) :
    isSupported d name = true := by
  obtain ⟨_, linked, -, -, hsupported, rfl⟩ := ofText_eq_ok_iff.1 h
  exact hsupported name (mem_freeVariablesLinked_of_mem_symbols hname)

/-- A sweep that is left out has a coordinate across that the program has no slot for. -/
theorem cross_not_mem_symbols (h : ofText source d = .ok c) {axis : Axis}
    (hsweep : c.sweeps axis = false) : axis.cross.name ∉ c.program.symbols := by
  obtain ⟨_, linked, -, -, -, rfl⟩ := ofText_eq_ok_iff.1 h
  intro hname
  have hmem := mem_freeVariablesLinked_of_mem_symbols hname
  cases axis <;> exact Bool.false_ne_true (hsweep.symm.trans (List.contains_iff_mem.2 hmem))

theorem contains_of_mem_symbols (h : ofText source d = .ok c) (hname : name ∈ c.program.symbols) :
    name = 'x' ∨ name = 'y' ∨ d.values.contains name = true := by
  simpa [isSupported, or_assoc] using isSupported_of_mem_symbols h hname

theorem environment_of_ofText (h : ofText source d = .ok c) : c.environment = d.values := by
  obtain ⟨_, _, -, -, -, rfl⟩ := ofText_eq_ok_iff.1 h
  rfl

/-- Once both coordinates are set, every symbol has a value. -/
theorem exists_value_of_mem_symbols (h : ofText source d = .ok c) (hname : name ∈ c.program.symbols)
    (axis : Axis) (along across : Float) : ∃ value,
      ((c.environment.set axis.name along).set axis.cross.name across).value? name = some value := by
  refine Option.isSome_iff_exists.1 ?_
  rw [Environment.value?_set, Environment.value?_set, environment_of_ofText h]
  split
  · rfl
  · next hcross =>
    split
    · rfl
    · next halong =>
      have hcoordinates : name ≠ 'x' ∧ name ≠ 'y' := by
        cases axis with
        | x => exact ⟨halong, hcross⟩
        | y => exact ⟨hcross, halong⟩
      rw [Environment.isSome_value?]
      exact ((contains_of_mem_symbols h hname).resolve_left hcoordinates.1).resolve_left
        hcoordinates.2

/-- A sweep that is left out finds nothing. -/
theorem sweep_eq_empty {axis : Axis} (hsweep : c.sweeps axis = false) {v : Viewport Float}
    {o : SampleOptions Float} {schedule : Schedule} {xSweep ySweep : PointBuffer Float}
    (hsample : c.sample v o schedule = .ok (xSweep, ySweep)) :
    (match axis with | .x => xSweep | .y => ySweep) = .empty axis := by
  obtain ⟨hx, hy⟩ := sample_eq_ok_iff.1 hsample
  cases axis with
  | x =>
    rw [hsweep] at hx
    exact (Except.ok.inj hx).symm
  | y =>
    rw [hsweep] at hy
    exact (Except.ok.inj hy).symm

/-- The sweep that is left out and the values that are missing do no harm.  Each symbol of the program of
a curve is a coordinate or has a value in the definitions.  So whatever coordinates a sweep tries, it
searches the value of the program in an environment in which every symbol has a value.  A sweep that is
left out by sampling is empty, and the value of the program is the same for all coordinates across
it. -/
theorem skippedSweep_harmless (h : ofText source d = .ok c) :
    (∀ name ∈ c.program.symbols, name = 'x' ∨ name = 'y' ∨ d.values.contains name = true) ∧
    (∀ (axis : Axis) (along across : Float),
      (∀ name ∈ c.program.symbols, ∃ value,
        ((c.environment.set axis.name along).set axis.cross.name across).value? name = some value) ∧
      c.program.asFunction (c.program.setVariable (c.program.bind c.environment) axis.name along)
          (c.program.slot axis.cross.name) across =
        c.program.eval ((c.environment.set axis.name along).set axis.cross.name across)) ∧
    ∀ axis : Axis, c.sweeps axis = false →
      (∀ v o schedule xSweep ySweep, c.sample v o schedule = .ok (xSweep, ySweep) →
        (match axis with | .x => xSweep | .y => ySweep) = .empty axis) ∧
      ∀ {α : Type} [Scalar α] (env : Environment α) (across across' : α),
        c.program.eval (env.set axis.cross.name across) =
          c.program.eval (env.set axis.cross.name across') := by
  refine ⟨fun name => contains_of_mem_symbols h, fun axis along across => ⟨fun name hname => ?_, ?_⟩,
    fun axis hsweep => ⟨fun v o schedule xSweep ySweep => sweep_eq_empty hsweep, ?_⟩⟩
  · exact exists_value_of_mem_symbols h hname axis along across
  · exact Program.asFunction_eq_eval (nodup_symbols h) _ _ _ _
  · intro α _ env across across'
    have hslot := cross_not_mem_symbols h hsweep
    rw [Program.eval_set_of_not_mem hslot, Program.eval_set_of_not_mem hslot]

/-- With `a = 2` and `f(t) = t - a`, the curve `f(x) = 1` reads `x` and `a`.  The sweep along `x` is left
out, and at `x = 3` the program is zero for any `y`. -/
theorem skippedSweep_harmless_definedGlobal :
    let f : FunctionDefinition :=
      .make 'f' ['t'] ⟨[⟨true, [.variable 't' none]⟩, ⟨false, [.variable 'a' none]⟩]⟩
    let d : Definitions := (Definitions.empty.defineVariable ⟨'a', 2⟩).defineFunction f
    ∃ c, ofText "f(x)=1".toList d = .ok c ∧ c.program.symbols = ['x', 'a'] ∧ c.sweeps .x = false ∧
      c.sweeps .y = true ∧
      ∀ y, c.program.eval ((c.environment.set 'x' 3).set 'y' y) = 0 := by
  intro f d
  have hcompute : (ofText "f(x)=1".toList d).map (fun c => (c.program.symbols, c.sweeps .x,
      c.sweeps .y, c.program.eval ((c.environment.set 'x' 3).set 'y' 0))) =
        .ok (['x', 'a'], false, true, 0) := by
    decide +kernel
  cases h : ofText "f(x)=1".toList d with
  | error e => rw [h] at hcompute; cases hcompute
  | ok c =>
    rw [h] at hcompute
    obtain ⟨hsymbols, hrest⟩ := Prod.mk.inj (Except.ok.inj hcompute)
    obtain ⟨hx, hvalues⟩ := Prod.mk.inj hrest
    obtain ⟨hy, hzero⟩ := Prod.mk.inj hvalues
    refine ⟨c, rfl, hsymbols, hx, hy, fun y => ?_⟩
    obtain ⟨-, -, hskipped⟩ := skippedSweep_harmless h
    exact ((hskipped .x hx).2 (c.environment.set 'x' 3) y 0).trans hzero

end Curve

end ImplicitCurves
