import WatCompiler.CommandLine
import WatCompiler.Proofs.Basic

/-!
# Files that commands write

Whatever its arguments are and whatever the system answers, the program changes at most one file,
and only a build that succeeds changes one: it gets the module of a source that compiles
(`invoke_files`). Its path is the one that was asked for, or that of the source with another ending.
In the latter case it is not the path of the source, and also not that of the same file if the
system has no two names in a directory for one file.

About the system only this is assumed: writing puts everything into the file that the path names, or
fails without effect. Reading and writing may fail at any time.

The dialogues of all other commands are quiet: they never ask for a file to be written, whatever
they are answered. So also a program that runs without end leaves the files as they are.
-/

namespace WatCompiler.CommandLine

/-! ## File systems -/

/-- What is to be seen of the files of a system. -/
structure FileView (σ File : Type) where
  /-- The file that a path names, or would name if it were there. -/
  file? : σ → Text → Option File
  /-- What a file holds, if it is there. -/
  content? : σ → File → Option Text

section FileSystems

variable {σ File : Type}

/-- One file gets a new content, and all others keep theirs. -/
def Replaces (before after : File → Option Text) (file : File) (content : Text) : Prop :=
  after file = some content ∧ ∀ other, other ≠ file → after other = before other

/-- Writing puts everything into the file that the path names, or fails without effect. -/
structure FileSystem.WritesWhole (system : FileSystem σ) (view : FileView σ File) : Prop where
  replaces : ∀ {s s' path content}, system.write s path content = (.ok (), s') →
    ∃ file, view.file? s path = some file ∧
      Replaces (view.content? s) (view.content? s') file content
  keeps : ∀ {s s' path content e}, system.write s path content = (.error e, s') →
    view.content? s' = view.content? s

/-- The byte between the parts of a path. -/
def slash : UInt8 := Text.byte '/'

/-- No file has two names in the same directory. -/
def FileView.NamesApart (view : FileView σ File) (s : σ) : Prop :=
  ∀ directory name name' file, (directory = [] ∨ ∃ path, directory = path ++ [slash]) →
    slash ∉ name → slash ∉ name' → view.file? s (directory ++ name) = some file →
    view.file? s (directory ++ name') = some file → name = name'

/-- Every path is that of a directory, up to its last slash, and a name. -/
theorem exists_directory (path : Text) :
    ∃ directory name, path = directory ++ name ∧
      (directory = [] ∨ ∃ path, directory = path ++ [slash]) ∧ slash ∉ name := by
  by_cases h : slash ∈ path
  · obtain ⟨name, start, hpath, hname⟩ := List.eq_append_cons_of_mem (List.mem_reverse.mpr h)
    refine ⟨start.reverse ++ [slash], name.reverse, ?_, .inr ⟨_, rfl⟩,
      mt List.mem_reverse.mp hname⟩
    rw [← List.reverse_reverse path, hpath, List.reverse_append, List.reverse_cons]
  · exact ⟨[], path, rfl, .inl rfl, h⟩

/-- Paths that differ in the ending of their last name are those of different files. -/
theorem FileView.NamesApart.ne_of_ending {view : FileView σ File} {s : σ} (h : view.NamesApart s)
    {stem x y : Text} (hx : slash ∉ x) (hy : slash ∉ y) (hxy : x ≠ y) {file : File}
    (hfile : view.file? s (stem ++ x) = some file) : view.file? s (stem ++ y) ≠ some file := by
  intro hfile'
  -- What the paths have in common may end inside a name, which starts behind the last slash.
  obtain ⟨directory, name, rfl, hdirectory, hname⟩ := exists_directory stem
  have hmem {z : Text} (hz : slash ∉ z) : slash ∉ name ++ z := by
    rw [List.mem_append, not_or]
    exact ⟨hname, hz⟩
  rw [List.append_assoc] at hfile hfile'
  exact hxy (List.append_cancel_left (h _ _ _ file hdirectory (hmem hx) (hmem hy) hfile hfile'))

end FileSystems

/-! ## Dialogues -/

/-- Whatever is answered, a dialogue does not ask for a file to be written. -/
def Dialogue.Quiet : Dialogue → Prop
  | exit _ => True
  | say _ _ next => next.Quiet
  | read _ next => ∀ answer, (next answer).Quiet
  | write _ _ _ => False
  | run _ next => ∀ r, (next r).Quiet

/-- Printing leaves the files alone. -/
theorem World.files_say {σ : Type} (w : World σ) (channel : Channel) (text : Text) :
    (w.say channel text).files = w.files := by
  cases channel <;> rfl

/-- A quiet dialogue keeps the state of the files. -/
theorem Dialogue.files_of_play {σ : Type} {system : FileSystem σ} {fuel code : Nat} {d : Dialogue}
    {w w' : World σ} (hd : d.Quiet) (h : d.play system fuel w = some (w', code)) :
    w'.files = w.files := by
  induction d generalizing w with
  | exit code =>
    cases h
    rfl
  | say channel text next ih => rw [ih hd h, World.files_say]
  | read path next ih => exact ih _ (hd _) h
  | write path content next ih => exact hd.elim
  | run machine next ih =>
    rw [play] at h
    cases hrun : machine.run none fuel with
    | none =>
      rw [hrun] at h
      cases h
    | some r =>
      rw [hrun] at h
      rw [ih r (hd r) h, World.files_say]

/-- Reading a source writes nothing. -/
theorem quiet_withSource {path : Text} {next : Text → Dialogue}
    (h : ∀ source, (next source).Quiet) :
    (withSource path next).Quiet := by
  intro answer
  cases answer with
  | error e => trivial
  | ok source => exact h source

/-- Compiling writes nothing. -/
theorem quiet_withModule {log : Log.Settings} {common : List Log.Field} {source : Text}
    {next : Text → Dialogue} (h : ∀ wat, (next wat).Quiet) :
    (withModule log common source next).Quiet := by
  unfold withModule
  obtain ⟨passed, result⟩ := compileWithReport source
  cases result with
  | error r => trivial
  | ok wat => exact h wat

/-- Running a module writes nothing. -/
theorem quiet_execute (log : Log.Settings) (common : List Log.Field) (wat : Text) :
    (execute log common wat).Quiet := by
  unfold execute
  cases Module.parse wat with
  | error e => trivial
  | ok m =>
    rintro ⟨machine, printed, failure⟩
    cases failure with
    | none => trivial
    | some failure => trivial

/-- No command but a build writes. -/
theorem quiet_perform {c : Command} (hc : c ≠ .build) (o : Options) (arg : Text) :
    (c.perform o arg).Quiet := by
  cases c with
  | build => exact absurd rfl hc
  | run => exact quiet_withSource fun source => quiet_withModule fun wat => quiet_execute _ _ wat
  | eval =>
    refine quiet_withModule fun wat => ?_
    split
    · trivial
    · exact quiet_execute _ _ wat
  | check =>
    refine quiet_withSource fun source => ?_
    cases checkSource source with
    | error r => trivial
    | ok program =>
      change Dialogue.Quiet (if o.verbose then _ else _)
      split
      · trivial
      · trivial

/-! ## Builds -/

/-- The arguments ask for a file to be built, with some options. -/
def AsksToBuild (args : List Text) (o : Options) (arg : Text) : Prop :=
  ∃ rest, args = Command.build.name :: rest ∧
    parseFlags Command.build.flags .default rest = .ok (o, [arg])

theorem ofName?_name (c : Command) : Command.ofName? c.name = some c := by
  cases c <;> decide

/-- The arguments tell the options and the source. -/
theorem AsksToBuild.unique {args : List Text} {o o' : Options} {arg arg' : Text}
    (h : AsksToBuild args o arg) (h' : AsksToBuild args o' arg') : o = o' ∧ arg = arg' := by
  obtain ⟨rest, rfl, hflags⟩ := h
  obtain ⟨rest', hargs, hflags'⟩ := h'
  cases hargs
  cases hflags.symm.trans hflags'
  exact ⟨rfl, rfl⟩

/-- Arguments that ask to build a source build it. -/
theorem start_of_asksToBuild {args : List Text} {o : Options} {arg : Text}
    (h : AsksToBuild args o arg) :
    start args = Command.build.perform o arg := by
  obtain ⟨rest, rfl, hflags⟩ := h
  simp only [start, ofName?_name, Command.start, hflags]

/-- Only `build` with one source may write. -/
theorem quiet_commandStart {c : Command} {args : List Text}
    (h : ∀ o arg, parseFlags c.flags .default args = .ok (o, [arg]) → c ≠ .build) :
    (c.start args).Quiet := by
  unfold Command.start
  cases hflags : parseFlags c.flags .default args with
  | error fault => cases fault <;> trivial
  | ok read =>
    obtain ⟨o, others⟩ := read
    cases others with
    | nil => trivial
    | cons arg more =>
      cases more with
      | nil => exact quiet_perform (h o arg hflags) o arg
      | cons second more => trivial

/-- Arguments that do not ask for a build are answered without writing. -/
theorem quiet_start {args : List Text} (h : ¬∃ o arg, AsksToBuild args o arg) :
    (start args).Quiet := by
  cases args with
  | nil => trivial
  | cons word rest =>
    rw [start]
    cases hcommand : Command.ofName? word with
    | none =>
      simp only []
      split
      · trivial
      · trivial
    | some c =>
      have hword : c.name = word :=
        eq_of_beq (List.find?_some (p := fun c : Command => c.name == word) hcommand)
      refine quiet_commandStart fun o arg hflags hbuild => h ⟨o, arg, rest, ?_, ?_⟩
      · rw [← hword, hbuild]
      · rw [← hbuild]
        exact hflags

/-- The path of a module: the one that was asked for, or else that of the source without a final
`.py` and with `.wat`. -/
def IsOutput (o : Options) (arg path : Text) : Prop :=
  (o.output ≠ [] ∧ path = o.output) ∨
    (o.output = [] ∧ ∃ stem, path = stem ++ ".wat" ∧
      (arg = stem ++ ".py" ∨ arg = stem ∧ ¬(".py" : Text) <:+ arg))

/-- There is one output path. -/
theorem isOutput_iff {o : Options} {arg path : Text} :
    IsOutput o arg path ↔ path = outputPath o arg := by
  unfold IsOutput outputPath
  by_cases houtput : o.output = []
  · simp only [houtput, ne_eq, not_true_eq_false, false_and, false_or, true_and, if_false]
    by_cases hending : (".py" : Text) <:+ arg
    · rw [if_pos (List.isSuffixOf_iff_suffix.mpr hending)]
      obtain ⟨stem, rfl⟩ := hending
      rw [List.length_append, Nat.add_sub_cancel, List.take_left]
      constructor
      · rintro ⟨stem', rfl, harg | ⟨-, hnone⟩⟩
        · rw [List.append_cancel_right harg]
        · exact absurd (List.suffix_append _ _) hnone
      · exact fun h => ⟨stem, h, .inl rfl⟩
    · rw [if_neg (mt List.isSuffixOf_iff_suffix.mp hending)]
      constructor
      · rintro ⟨stem, rfl, rfl | ⟨rfl, -⟩⟩
        · exact absurd (List.suffix_append _ _) hending
        · rfl
      · exact fun h => ⟨arg, h, .inr ⟨rfl, hending⟩⟩
  · simp only [houtput, ne_eq, not_false_eq_true, true_and, false_and, or_false, if_true]

/-- The path of a module is another one than that of the source, unless it was asked for, and so is
its file. -/
theorem ne_of_isOutput {σ File : Type} {view : FileView σ File} {s : σ} {o : Options}
    {arg path : Text} {file : File} (houtput : o.output = []) (hpath : IsOutput o arg path)
    (hfile : view.file? s path = some file) :
    path ≠ arg ∧ (view.NamesApart s → view.file? s arg ≠ some file) := by
  rcases hpath with ⟨hasked, -⟩ | ⟨-, stem, rfl, rfl | ⟨rfl, -⟩⟩
  · exact absurd houtput hasked
  · refine ⟨fun h => ?_, fun h => h.ne_of_ending (by decide) (by decide) (by decide) hfile⟩
    exact absurd (List.append_cancel_left h) (by decide)
  · refine ⟨fun h => absurd (List.append_right_eq_self.mp h) (by decide), fun h => ?_⟩
    rw [← List.append_nil arg]
    exact h.ne_of_ending (by decide) (by decide) (by decide) hfile

section Playing

variable {σ : Type} {system : FileSystem σ} {fuel : Nat} {log : Log.Settings}
  {common : List Log.Field} {source : Text} {next : Text → Dialogue} {w : World σ}

/-- What is logged while a source is compiled does not concern the files. -/
def logged (log : Log.Settings) (common : List Log.Field) (source : Text) (w : World σ) : World σ :=
  w.say .diagnostics (log.render common ((compileWithReport source).1.map Milestone.record))

/-- A source that is refused ends with a complaint. -/
theorem play_withModule_error {r : Rejection} (h : compile source = .error r) :
    (withModule log common source next).play system fuel w =
      (complain ("Compilation failed: " ++ r.message ++ "\n")).play system fuel
        (logged log common source w) := by
  rw [← compileWithReport_snd] at h
  unfold withModule logged
  generalize compileWithReport source = report at h ⊢
  obtain ⟨passed, result⟩ := report
  cases h
  rfl

theorem play_withModule_ok {wat : Text} (h : compile source = .ok wat) :
    (withModule log common source next).play system fuel w =
      (next wat).play system fuel (logged log common source w) := by
  rw [← compileWithReport_snd] at h
  unfold withModule logged
  generalize compileWithReport source = report at h ⊢
  obtain ⟨passed, result⟩ := report
  cases h
  rfl

/-- A build ends. It fails where reading, compiling or writing does, and else it has written its
module. It asks for nothing to be written unless the source was read and compiles. -/
theorem play_build (system : FileSystem σ) (fuel : Nat) (o : Options) (arg : Text) (w : World σ) :
    ∃ w' code, (Command.build.perform o arg).play system fuel w = some (w', code) ∧
      ((code = 1 ∧ w'.files = w.files ∧ ∀ source wat, system.read w.files arg = .ok source →
          compile source ≠ .ok wat) ∨
        ∃ source wat, system.read w.files arg = .ok source ∧ compile source = .ok wat ∧
          ((code = 1 ∧ ∃ e, system.write w.files (outputPath o arg) wat = (.error e, w'.files)) ∨
            (code = 0 ∧ system.write w.files (outputPath o arg) wat = (.ok (), w'.files)))) := by
  -- Reading, compiling and writing can fail, one after the other, and each failure ends the build.
  unfold Command.perform withSource
  simp only [Dialogue.play]
  cases hread : system.read w.files arg with
  | error e =>
    refine ⟨_, _, rfl, .inl ⟨rfl, World.files_say .., ?_⟩⟩
    intro source wat h
    cases h
  | ok source =>
    simp only []
    have hlogged : (logged o.log [fileField arg] source w).files = w.files := World.files_say ..
    cases hcompile : compile source with
    | error r =>
      rw [play_withModule_error hcompile]
      refine ⟨_, _, rfl, .inl ⟨rfl, (World.files_say ..).trans hlogged, ?_⟩⟩
      intro source' wat h hok
      cases h
      cases hcompile.symm.trans hok
    | ok wat =>
      rw [play_withModule_ok hcompile, Dialogue.play, hlogged]
      cases hwrite : system.write w.files (outputPath o arg) wat with
      | mk answer files =>
        cases answer with
        | error e =>
          exact ⟨_, _, rfl, .inr ⟨source, wat, rfl, hcompile, .inl ⟨rfl, e, hwrite⟩⟩⟩
        | ok =>
          exact ⟨_, _, rfl, .inr ⟨source, wat, rfl, hcompile, .inr ⟨rfl, hwrite⟩⟩⟩

end Playing

/-- The arguments ask for the module of a source that compiles, to be written under a path. -/
structure Builds {σ : Type} (system : FileSystem σ) (s : σ) (args : List Text) (o : Options)
    (arg wat path : Text) : Prop where
  asked : AsksToBuild args o arg
  compiled : ∃ source, system.read s arg = .ok source ∧ compile source = .ok wat
  named : IsOutput o arg path

/-- **Files are safe from the command line.** Let writing put everything into the file that its path
names, or fail without effect. Then a run that fails leaves all files as they are. A run that
changes one changes no other, and it is a build of one source that compiles. What it writes is the
module, under the path that was asked for or that of the source with another ending, and the latter
is not the path of the source, nor another name of its file if there are none in the same directory.
Every such build writes its module if the system does not fail. A run that does not end is never
about to write. -/
theorem invoke_files {σ File : Type} (system : FileSystem σ) (view : FileView σ File)
    (hsystem : system.WritesWhole view) (fuel : Nat) (args : List Text) (s : σ) :
    (invoke system fuel args s = none → (start args).Quiet) ∧
      ∀ w code, invoke system fuel args s = some (w, code) →
        (code ≠ 0 → view.content? w.files = view.content? s) ∧
        (view.content? w.files ≠ view.content? s → code = 0 ∧
          ∃ o arg wat path file, Builds system s args o arg wat path ∧
            view.file? s path = some file ∧
            (o.output = [] → path ≠ arg ∧ (view.NamesApart s → view.file? s arg ≠ some file)) ∧
            Replaces (view.content? s) (view.content? w.files) file wat) ∧
        ∀ o arg wat path s', Builds system s args o arg wat path →
          system.write s path wat = (.ok (), s') → code = 0 ∧ w.files = s' := by
  by_cases hasked : ∃ o arg, AsksToBuild args o arg
  · obtain ⟨o, arg, hasked⟩ := hasked
    obtain ⟨w, code, hplay, hresult⟩ := play_build system fuel o arg ⟨s, [], []⟩
    have hinvoke : invoke system fuel args s = some (w, code) := by
      rw [invoke, start_of_asksToBuild hasked, hplay]
    rw [hinvoke]
    refine ⟨fun h => (by cases h), fun w' code' h => ?_⟩
    cases h
    rcases hresult with ⟨rfl, hfiles, hfails⟩ | ⟨source, wat, hread, hcompile, hwrite⟩
    · rw [hfiles]
      refine ⟨fun _ => rfl, fun hchanged => absurd rfl hchanged, ?_⟩
      rintro o' arg' wat path s' ⟨hasked', ⟨source, hread, hcompile⟩, -⟩
      obtain ⟨rfl, rfl⟩ := hasked.unique hasked'
      exact absurd hcompile (hfails source wat hread)
    · have hnamed : IsOutput o arg (outputPath o arg) := isOutput_iff.mpr rfl
      -- Any other build that the arguments ask for is this one.
      have hsame {o' arg' wat' path s'} (hbuilds : Builds system s args o' arg' wat' path)
          (hwrite' : system.write s path wat' = (.ok (), s')) :
          system.write s (outputPath o arg) wat = (.ok (), s') := by
        obtain ⟨hasked', ⟨source', hread', hcompile'⟩, hnamed'⟩ := hbuilds
        obtain ⟨rfl, rfl⟩ := hasked.unique hasked'
        cases hread.symm.trans hread'
        cases hcompile.symm.trans hcompile'
        rw [← isOutput_iff.mp hnamed', hwrite']
      rcases hwrite with ⟨rfl, e, hwrite⟩ | ⟨rfl, hwrite⟩
      · refine ⟨fun _ => hsystem.keeps hwrite, fun hchanged => ?_, ?_⟩
        · exact absurd (hsystem.keeps hwrite) hchanged
        · intro o' arg' wat' path s' hbuilds hwrite'
          cases hwrite.symm.trans (hsame hbuilds hwrite')
      · refine ⟨fun hcode => absurd rfl hcode, fun _ => ⟨rfl, ?_⟩, ?_⟩
        · obtain ⟨file, hfile, hreplaces⟩ := hsystem.replaces hwrite
          exact ⟨o, arg, wat, _, file, ⟨hasked, ⟨source, hread, hcompile⟩, hnamed⟩, hfile,
            fun houtput => ne_of_isOutput houtput hnamed hfile, hreplaces⟩
        · intro o' arg' wat' path s' hbuilds hwrite'
          cases hwrite.symm.trans (hsame hbuilds hwrite')
          exact ⟨rfl, rfl⟩
  · have hquiet := quiet_start hasked
    refine ⟨fun _ => hquiet, fun w code h => ?_⟩
    have hfiles : w.files = s := Dialogue.files_of_play hquiet h
    rw [hfiles]
    refine ⟨fun _ => rfl, fun hchanged => absurd rfl hchanged, ?_⟩
    intro o arg wat path s' hbuilds
    exact absurd ⟨o, arg, hbuilds.asked⟩ hasked

/-- A system that keeps files in a table by their paths, and lets nobody at those that are
locked. -/
def tableSystem (locked : List Text) : FileSystem (Table Text) where
  read files path :=
    if path ∈ locked then .error ⟨"open", path, "permission denied"⟩
    else
      match files.find? path with
      | none => .error ⟨"open", path, "no such file or directory"⟩
      | some content => .ok content
  write files path content :=
    if path ∈ locked then (.error ⟨"open", path, "permission denied"⟩, files)
    else (.ok (), files.insert path content)

/-- In a table a path is a file of its own. -/
def tableView : FileView (Table Text) Text := ⟨fun _ path => some path, Table.find?⟩

/-- A table of files writes a file whole or not at all. -/
theorem writesWhole_tableSystem (locked : List Text) :
    (tableSystem locked).WritesWhole tableView where
  replaces {s s' path content} h := by
    by_cases hlocked : path ∈ locked
    · cases (if_pos hlocked).symm.trans h
    · cases (if_neg hlocked).symm.trans h
      refine ⟨path, rfl, Table.find?_insert_self .., fun other hother => ?_⟩
      exact Table.find?_insert_of_ne s content hother
  keeps {s s' path content e} h := by
    by_cases hlocked : path ∈ locked
    · cases (if_pos hlocked).symm.trans h
      rfl
    · cases (if_neg hlocked).symm.trans h

/-- A directory with an empty program in it. -/
def emptyProgram : Table Text := [("d/a.py", [])]

/-- A build beside its source, and one whose output is locked. -/
theorem invoke_files_emptyProgram :
    (∃ w wat, invoke (tableSystem []) 0 ["build", "d/a.py"] emptyProgram = some (w, 0) ∧
      compile [] = .ok wat ∧ w.files = emptyProgram.insert "d/a.wat" wat) ∧
    ∃ w, invoke (tableSystem ["d/a.wat"]) 0 ["build", "d/a.py"] emptyProgram = some (w, 1) ∧
      ∀ path, w.files.find? path = emptyProgram.find? path := by
  have hcompile : (compile []).toOption.map (fun _ => ()) = some () := by decide +kernel
  obtain ⟨wat, hwat, -⟩ := toOption_map_eq_some.mp hcompile
  have hcode (locked : List Text) (code : Nat)
      (h : (invoke (tableSystem locked) 0 ["build", "d/a.py"] emptyProgram).map (·.2) = some code) :
      ∃ w, invoke (tableSystem locked) 0 ["build", "d/a.py"] emptyProgram = some (w, code) := by
    obtain ⟨⟨w, code⟩, hinvoke, rfl⟩ := Option.map_eq_some_iff.mp h
    exact ⟨w, hinvoke⟩
  constructor
  · obtain ⟨w, hinvoke⟩ := hcode [] 0 (by decide +kernel)
    have hbuilds : Builds (tableSystem []) emptyProgram ["build", "d/a.py"] .default "d/a.py" wat
        "d/a.wat" :=
      ⟨⟨["d/a.py"], rfl, rfl⟩, ⟨[], rfl, hwat⟩, .inr ⟨rfl, "d/a", rfl, .inl rfl⟩⟩
    have hfiles := ((invoke_files _ tableView (writesWhole_tableSystem []) 0 _ _).2 w _ hinvoke).2.2
      _ _ _ _ _ hbuilds rfl
    exact ⟨w, wat, hinvoke, hwat, hfiles.2⟩
  · obtain ⟨w, hinvoke⟩ := hcode ["d/a.wat"] 1 (by decide +kernel)
    have hfiles := ((invoke_files _ tableView (writesWhole_tableSystem _) 0 _ _).2 w _ hinvoke).1
      (by decide)
    exact ⟨w, hinvoke, fun path => congrFun hfiles path⟩

end WatCompiler.CommandLine
