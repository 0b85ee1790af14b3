import ThreeAddress.Proofs.Compilation.Behaviour
import ThreeAddress.Proofs.Compilation.Versions
import ThreeAddress.Proofs.Source.Reading
/-!
# Texts of compiled programs

The text of a program is read as the program, be it one that was read before or one that such a
program is compiled to.

* `Program.isProper_of_compile` : compiled programs can be written, if no version is too great;
* `Program.parse_text_of_parse` : programs are read from their texts, before and after compilation.
-/

namespace ThreeAddress

namespace Program

variable {p : Program} {o : CompileOptions} {c : CompiledProgram}

/-- A program that can be written is compiled to one that can be written. -/
theorem isProper_of_compile (proper : p.isProper = true) (h : p.compile o = .ok c) :
    c.tac.isProper = true := by
  obtain ⟨globals, procs⟩ := exists_of_compile h
  simp only [isProper, Bool.and_eq_true, decide_eq_true_eq] at proper ⊢
  obtain ⟨⟨vars, bodies⟩, once⟩ := proper
  have written : ∀ q ∈ p.procs, ∀ d, q.compile o = .ok d →
      d.tac.name = q.name ∧ d.tac.isProper = true := fun q hq d compiled => by
    have writable := Proc.writable_of_compile (List.all_eq_true.1 bodies q hq) compiled
    exact ⟨writable.same, writable.isProper_toProc⟩
  have both : List.Forall₂ (fun q d => q.name = d.tac.name ∧ d.tac.isProper = true)
      p.procs c.procs :=
    (List.forall₂_and_left _ _).2 ⟨fun q hq => hq, procs⟩ |>.imp fun q d related =>
      (written q related.1 d related.2).imp Eq.symm id
  have names : p.declared.map Declared.name = c.tac.declared.map Declared.name := by
    have same : p.procs.map Proc.name = c.procs.map fun d => d.tac.name := by
      rw [← List.forall₂_eq_eq_eq, List.forall₂_map_left_iff, List.forall₂_map_right_iff]
      exact both.imp fun _ _ related => related.1
    simp only [declared, CompiledProgram.tac, globals, List.map_append, List.map_map]
    exact congrArg (_ ++ ·) same
  have compiled : c.tac.procs.all Proc.isProper = true := by
    rw [CompiledProgram.tac, List.all_map, List.all_eq_true]
    exact ((List.forall₂_and_left _ _).1 (both.flip.imp fun _ _ related => related.symm)).1
  exact ⟨⟨(congrArg (List.all · _) globals).trans vars, compiled⟩, names ▸ once⟩

/-- A program that was read is read again from its text, and so is the program that it is compiled
to. Versions are 32-bit numbers when they are read; the versions of the compiler are counted without
a bound, and have to be such numbers. They are if the procedures are not too large
(`fits_of_compile`). -/
theorem parse_text_of_parse {source : String} (h : parse source = .ok p) :
    parse p.text = .ok p ∧ ∀ (o : CompileOptions) (c : CompiledProgram), p.compile o = .ok c →
      c.tac.fits = true → parse c.tac.text = .ok c.tac := by
  obtain ⟨proper, small⟩ := of_parse h
  exact ⟨parse_text proper small, fun o c compiled small' =>
    parse_text (isProper_of_compile proper compiled) small'⟩

/-- A program that counts down from a variable in a procedure of its own. -/
def seeded : Program :=
  let n : Temp := ⟨"n", none⟩
  let one : Temp := ⟨"1", none⟩
  ⟨[⟨⟨"seed"⟩, -3⟩], [
    ⟨⟨"down"⟩, [n], [
      .label ⟨"loop"⟩,
      .print (.temp n),
      .const (.temp one) (-1),
      .binary .sub (.temp n) (.temp n) (.temp one),
      .branch .nonzero (.temp n) ⟨"loop"⟩,
      .ret .sink]⟩,
    ⟨⟨"main"⟩, [], [
      .copy (.temp n) (.global ⟨"seed"⟩),
      .param 1 (.temp n),
      .call .sink ⟨"down"⟩ 1,
      .ret (.temp n)]⟩]⟩

/-- The program that counts down, compiled with all the phis of the conversion. -/
theorem parse_text_of_parse_seeded : ∃ c, parse seeded.text = .ok seeded ∧
    seeded.compile ⟨true, false, .all, 4, true⟩ = .ok c ∧ c.tac.fits = true ∧
      parse c.tac.text = .ok c.tac := by
  have reads : parse seeded.text = .ok seeded := parse_text (by decide) (by decide)
  have compiles : (seeded.compile ⟨true, false, .all, 4, true⟩).toOption.isSome = true := by
    decide +kernel
  cases compiled : seeded.compile ⟨true, false, .all, 4, true⟩ with
  | error e => simp [compiled, Except.toOption] at compiles
  | ok c =>
    obtain ⟨proper, small⟩ := of_parse reads
    have small' := fits_of_compile proper small (by decide +kernel) compiled
    obtain ⟨again, later⟩ := parse_text_of_parse reads
    exact ⟨c, again, rfl, small', later _ c compiled small'⟩

end Program

end ThreeAddress
