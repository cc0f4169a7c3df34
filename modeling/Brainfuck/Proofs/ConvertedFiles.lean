import Brainfuck.CommandLine.Task
import Brainfuck.Proofs.Equivalence
import Brainfuck.Proofs.Files

/-!
# Converted files run alike

A file that can be read as a text is converted to any path that can be written. The new file then
runs like the one it was converted from: with the same exit code, the same output, the same number
of instructions and the same failure, which names the file that was run. This takes a dialect that
tells the operators of the text apart: any with a name but COW, and COW if the text takes no input.

## Main definitions

* `CommandLine.config?`: the configuration that the settings of a run make
* `CommandLine.Verdict.renamed`: a verdict on the run of another file
* `CommandLine.Conclusion.SameAs`: what is left of two runs is the same but for the path in it

## Main results

* `Dialect.distinct_cow`: COW shares the token of the input alone
* `DialectName.exists_reads_convert`: a converted text reads as before
* `CommandLine.execute_run`, `CommandLine.execute_convert`: what the commands come to
* `CommandLine.execute_converted`: a converted file runs like the original
-/

namespace Brainfuck

/-! ## Dialects with a name -/

/-- **In COW every operator but the input** has a token that can be told apart. -/
theorem Dialect.distinct_cow {op : Operator} (hop : op ∈ Operator.primitives)
    (hne : op ≠ .input) : cow.Distinct op := by
  refine ⟨?_, ?_, ?_⟩
  · revert op
    decide
  · revert op
    decide
  · revert op
    decide

namespace DialectName

theorem faithful {name : DialectName} (h : name ≠ cow) : name.dialect.Faithful := by
  cases name with
  | cow => exact absurd rfl h
  | _ => decide

/-- **A text that is converted into a dialect with a name** reads as before, but for COW if the text
takes input. -/
theorem exists_reads_convert {a : Dialect} {text : String} {name : DialectName}
    (h : name ≠ cow ∨ ∃ ops, a.Reads text.toList ops ∧ .input ∉ ops) :
    ∃ ops, a.Reads text.toList ops ∧
      name.dialect.Reads (convert a name.dialect text).toList ops := by
  by_cases hname : name = cow
  · subst hname
    obtain ⟨ops, hops, hinput⟩ := h.resolve_left fun hne => hne rfl
    refine ⟨ops, hops, hops.convert_of_distinct fun op hop => ?_⟩
    exact Dialect.distinct_cow (hops.mem_primitives op hop) fun heq => hinput (heq ▸ hop)
  · obtain ⟨ops, hops⟩ := a.exists_reads text.toList
    exact ⟨ops, hops, hops.convert (faithful hname)⟩

end DialectName

/-! ## Running files -/

namespace CommandLine

/-- The configuration that the settings of a run make, or the first that is not known. -/
def config? (width bounds : Option String) (size : Option Nat) : Except ConfigError Config := do
  let width ← optional Config.width? .byte width
  let policy ← optional Config.policy? .fatal bounds
  let usual : Config := {}
  return { width, capacity := (size.filter (0 < ·)).getD usual.capacity, policy }

/-- The verdict on the run of a file, as it is on the run of the file at `path`. -/
def Verdict.renamed (path : String) : Verdict → Verdict
  | failed (.run _ e) => failed (.run path e)
  | v => v

theorem Verdict.code_renamed (path : String) (v : Verdict) : (v.renamed path).code = v.code := by
  cases v with
  | failed f => cases f <;> rfl
  | _ => rfl

theorem Verdict.renamed_ofFailure (path path' : String) (e : Error) :
    (ofFailure (.run path e)).renamed path' = ofFailure (.run path' e) := by
  cases e with
  | run e => cases e <;> rfl
  | _ => rfl

variable {width bounds : Option String} {size : Option Nat} {stats : Bool} {rounds : Nat}
  {name path path' text : String} {args : List String} {files files' : FileSystem} {stdin : Input}

theorem dialect?_eq {dialect : DialectName} (h : DialectName.ofText? name = some dialect) :
    dialect? name = .ok dialect.dialect := by
  rw [dialect?, h]

theorem ofCommand_run {dialect : DialectName} (h : DialectName.ofText? name = some dialect)
    (path : String) (width bounds : Option String) (size : Option Nat) (stats : Bool) :
    Task.ofCommand (.run path (some name) width bounds size stats) =
      ((config? width bounds size).map fun config =>
        Task.run path dialect.dialect config stats).mapError .setting := by
  have hdialect : optional dialect? .brainfuck (some name) = .ok dialect.dialect := by
    rw [optional, dialect?_eq h]
  -- The width is looked at before the policy, and both before the size.
  unfold Task.ofCommand config?
  dsimp only
  rw [hdialect]
  cases optional Config.width? .byte width with
  | error e => rfl
  | ok width => cases optional Config.policy? .fatal bounds <;> rfl

/-- **What running a file comes to**: a setting that is not known, or the run of its text. -/
theorem execute_run {dialect : DialectName} (hname : DialectName.ofText? name = some dialect)
    (hargs : Command.parse args = some (.run path (some name) width bounds size stats))
    (htext : files.readText path = .ok text) (rounds : Nat) (stdin : Input) :
    execute rounds args files stdin =
      match config? width bounds size with
      | .error e => some ⟨.failed (.setting e), #[], files⟩
      | .ok config =>
        (Runner.runDialect ⟨config, false, true⟩ rounds dialect.dialect text stdin
          (.ofDevice .unlimited)).map (.ofTranscript path stats files) := by
  rw [execute, hargs]
  dsimp only
  rw [ofCommand_run hname]
  cases config? width bounds size with
  | error e => rfl
  | ok config =>
    show (Runner.runFile ⟨config, false, true⟩ rounds files path dialect.dialect stdin
      (.ofDevice .unlimited)).map _ = _
    rw [Runner.runFile, htext]

/-- What is left of a run is the same as what is left of the run of the file at `path`: the exit
code, the verdict but for the path in it, and what was written. -/
structure Conclusion.SameAs (path : String) (x y : Conclusion) : Prop where
  code : x.verdict.code = y.verdict.code
  verdict : x.verdict.renamed path = y.verdict
  written : x.written = y.written

theorem Conclusion.sameAs_ofTranscript (path path' : String) (stats : Bool)
    (files files' : FileSystem) {t t' : Transcript}
    (h : t.withoutEvents = t'.withoutEvents) :
    SameAs path' (ofTranscript path stats files t) (ofTranscript path' stats files' t') := by
  have hresult := congrArg (fun t => t.result) h
  have hwritten := congrArg (fun t => t.output.written) h
  dsimp only [Transcript.withoutEvents] at hresult hwritten
  unfold ofTranscript
  rw [← hresult, ← hwritten]
  cases t.result with
  | error e =>
    have hverdict := Verdict.renamed_ofFailure path path' e
    exact ⟨(Verdict.code_renamed path' _).symm.trans (congrArg _ hverdict), hverdict, rfl⟩
  | ok report => exact ⟨rfl, rfl, rfl⟩

theorem Conclusion.rel_ofTranscript (path path' : String) (stats : Bool)
    (files files' : FileSystem) {x y : Option Transcript}
    (h : x.map Transcript.withoutEvents = y.map Transcript.withoutEvents) :
    Option.Rel (SameAs path') (x.map (ofTranscript path stats files))
      (y.map (ofTranscript path' stats files')) := by
  cases x with
  | none =>
    cases y with
    | none => exact .none
    | some t' => cases h
  | some t =>
    cases y with
    | none => cases h
    | some t' => exact .some (sameAs_ofTranscript path path' stats files files' (Option.some.inj h))

/-- **What converting a file comes to**, if it can be read and the other file can be written. -/
theorem execute_convert {src dst : DialectName} {srcName dstName target : String}
    (hsrc : DialectName.ofText? srcName = some src) (hdst : DialectName.ofText? dstName = some dst)
    (hargs : Command.parse args = some (.convert path target srcName dstName))
    (htext : files.readText path = .ok text)
    (hwrite : files.write target (convert src.dialect dst.dialect text).toUTF8 = .ok files')
    (rounds : Nat) (stdin : Input) :
    execute rounds args files stdin =
      some (.ofText s!"Converted {path} -> {target}\n" files') := by
  have hcommand : Task.ofCommand (.convert path target srcName dstName) =
      .ok (.convert path target src.dialect dst.dialect) := by
    unfold Task.ofCommand
    dsimp only
    rw [dialect?_eq hsrc, dialect?_eq hdst]
    rfl
  have hconvert : convertFile path target src.dialect dst.dialect files = .ok files' := by
    rw [convertFile, htext]
    show Except.mapError _ (files.write target _) = _
    rw [hwrite]
    rfl
  rw [execute, hargs]
  dsimp only
  rw [hcommand]
  dsimp only [Task.perform]
  rw [hconvert]

/-- **Files that read as the same operators run alike**, in whatever file systems they are. -/
theorem sameAs_execute_run {src dst : DialectName} {srcName dstName text' : String}
    {args' : List String} {ops : List Operator}
    (hsrc : DialectName.ofText? srcName = some src) (hdst : DialectName.ofText? dstName = some dst)
    (hargs : Command.parse args = some (.run path (some srcName) width bounds size stats))
    (hargs' : Command.parse args' = some (.run path' (some dstName) width bounds size stats))
    (htext : files.readText path = .ok text) (htext' : files'.readText path' = .ok text')
    (hops : src.dialect.Reads text.toList ops) (hops' : dst.dialect.Reads text'.toList ops)
    (rounds : Nat) (stdin : Input) :
    Option.Rel (Conclusion.SameAs path) (execute rounds args' files' stdin)
      (execute rounds args files stdin) := by
  rw [execute_run hsrc hargs htext, execute_run hdst hargs' htext']
  cases config? width bounds size with
  | error e => exact .some ⟨rfl, rfl, rfl⟩
  | ok config =>
    have hruns := (Runner.runDialect_congr ⟨config, false, true⟩ hops' hops).2 rounds stdin
      (.ofDevice .unlimited)
    exact Conclusion.rel_ofTranscript path' path stats files' files hruns

/-- **A converted file runs like the original.** A file that can be read as a text is converted to
any path that can be written. This changes no other file, and the new file runs like the original
does, before the conversion or after it: with the same exit code, output, number of instructions and
failure, but for the path in it. -/
theorem execute_converted {files : FileSystem} {f g text srcName dstName : String}
    {src dst : DialectName} (hf : files.readText f = .ok text)
    (hg : ∃ content written, files.write g content = .ok written)
    (hsrc : DialectName.ofText? srcName = some src) (hdst : DialectName.ofText? dstName = some dst)
    (hinput : dst ≠ .cow ∨ ∃ ops, src.dialect.Reads text.toList ops ∧ .input ∉ ops) :
    ∃ after : FileSystem,
      (∀ rounds args stdin, Command.parse args = some (.convert f g srcName dstName) →
        execute rounds args files stdin =
          some ⟨.succeeded none, s!"Converted {f} -> {g}\n".toUTF8.data, after⟩) ∧
      files.WrittenAt g (convert src.dialect dst.dialect text).toUTF8 after ∧
      (files.locate f ≠ files.locate g → after.readText f = .ok text) ∧
      ∀ before : FileSystem, before.readText f = .ok text →
        ∀ rounds args args' width bounds size stats stdin,
          Command.parse args = some (.run f (some srcName) width bounds size stats) →
          Command.parse args' = some (.run g (some dstName) width bounds size stats) →
          Option.Rel (Conclusion.SameAs f) (execute rounds args' after stdin)
            (execute rounds args before stdin) := by
  obtain ⟨_, _, hwrite⟩ := hg
  obtain ⟨place, hwritable, -⟩ := FileSystem.writable_of_write hwrite
  have hconvert := hwritable.write (convert src.dialect dst.dialect text).toUTF8
  have hwritten := FileSystem.writtenAt_of_write hconvert
  refine ⟨_, ?_, hwritten, fun hne => hwritten.readText_of_ne hf hne, ?_⟩
  · intro rounds args stdin hargs
    exact execute_convert hsrc hdst hargs hf hconvert rounds stdin
  · -- The new text reads as the operators of the text that was converted.
    intro before hbefore rounds args args' width bounds size stats stdin hargs hargs'
    obtain ⟨ops, hops, hops'⟩ := DialectName.exists_reads_convert hinput
    exact sameAs_execute_run hsrc hdst hargs hargs' hbefore hwritten.readText_self hops hops'
      rounds stdin

/-- A text with a comment is converted to COW, and both files write a byte and leave a tape of one
cell. -/
theorem execute_converted_to_cow :
    ∃ (files after : FileSystem) (y : Conclusion),
      files = ⟨.directory [("a", .file "+x.>".toUTF8)], []⟩ ∧
      execute 0 ["convert", "a", "b", "--from", "brainfuck", "--to=cow!"] files [] =
        some ⟨.succeeded none, "Converted a -> b\n".toUTF8.data, after⟩ ∧
      after.readText "b" = .ok "MoOMoomoO" ∧ after.readText "a" = .ok "+x.>" ∧
      execute 3 ["run", "--dialect", "brainfuck", "--size=1", "a"] files [] = some y ∧
      y.written = #[1] ∧ y.verdict = .failed (.run "a" (.run (.bounds ⟨0, .right⟩))) ∧
      Option.Rel (Conclusion.SameAs "a")
        (execute 3 ["run", "b", "--dialect=cow!", "--size", "1"] after []) (some y) := by
  obtain ⟨files, hfiles⟩ : ∃ files : FileSystem,
      files = ⟨.directory [("a", .file "+x.>".toUTF8)], []⟩ := ⟨_, rfl⟩
  have hread : files.readText "a" = .ok "+x.>" := FileSystem.readText_of_read (hfiles ▸ rfl)
  have hwrite : ∃ content written, files.write "b" content = .ok written := by
    rw [hfiles]
    exact ⟨.empty, _, rfl⟩
  have hsrc : DialectName.ofText? "brainfuck" = some .brainfuck := by decide
  have hdst : DialectName.ofText? "cow!" = some .cow := by decide
  have hinput : DialectName.cow ≠ .cow ∨
      ∃ ops, Dialect.brainfuck.Reads "+x.>".toList ops ∧ .input ∉ ops := by
    obtain ⟨ops, hops⟩ := Dialect.brainfuck.exists_reads "+x.>".toList
    refine .inr ⟨ops, hops, ?_⟩
    rw [← hops.filterMap_ofChar?]
    decide
  obtain ⟨after, hconvert, hwritten, hkept, hrun⟩ :=
    execute_converted hread hwrite hsrc hdst hinput
  have hargs : Command.parse ["run", "--dialect", "brainfuck", "--size=1", "a"] =
      some (.run "a" (some "brainfuck") none none (some 1) false) := by decide +kernel
  have hargs' : Command.parse ["run", "b", "--dialect=cow!", "--size", "1"] =
      some (.run "b" (some "cow!") none none (some 1) false) := by decide +kernel
  obtain ⟨y, hy, hbytes, hverdict⟩ : ∃ y,
      execute 3 ["run", "--dialect", "brainfuck", "--size=1", "a"] files [] = some y ∧
      y.written = #[1] ∧ y.verdict = .failed (.run "a" (.run (.bounds ⟨0, .right⟩))) := by
    rw [execute_run hsrc hargs hread]
    exact ⟨_, rfl, rfl, rfl⟩
  have hsame := hrun files hread 3 _ _ _ _ _ _ [] hargs hargs'
  rw [hy] at hsame
  have hreads : Dialect.brainfuck.Reads "+x.>".toList [.inc, .output, .right] :=
    .of_begins (by decide) <| .dropped (by decide) <| .of_begins (by decide) <|
      .of_begins (by decide) .nil
  have htext : convert .brainfuck .cow "+x.>" = "MoOMoomoO" := by
    rw [convert_eq_of_reads hreads]
    decide
  have hother : files.locate "a" ≠ files.locate "b" := by
    rw [hfiles]
    decide
  refine ⟨files, after, y, hfiles, hconvert 0 _ [] (by decide), ?_, hkept hother, hy, hbytes,
    hverdict, hsame⟩
  rw [← htext]
  exact hwritten.readText_self

end CommandLine

end Brainfuck
