import SchemaWire.Proofs.Cli.Perform
import SchemaWire.Proofs.Files.Clear

/-!
What `generate` does to files, without a formatter. It changes a file only if it says that it has
written it; the file then holds the generated code, and every other file is as it was. Asked to
compare, it changes nothing, and right after it has written a file it finds the file up to date,
unless writing has made a directory where the configuration is looked for.
-/
namespace SchemaWire.Cli

open Files (FileSystem FileError)

/-- The output file cannot be read, its directory cannot be made or it cannot be written. -/
def CommandError.IsOutputFault : CommandError → Prop
  | unreadableOutput _ _ | noDirectory _ _ | unwritable _ _ => True
  | _ => False

variable {files next : FileSystem} {surroundings : Surroundings} {options : GenerateOptions}
  {config : Config} {schema path : String} {generated : Generated}

/-- Writing a file whose directory is there. -/
def writeFile (path code : String) : Action Outcome := do
  orFail (.unwritable path) (Files.Access.writeText path code)
  return .written path

theorem perform_writeFile_of_ok {path code : String} (h : files.writeText path code = .ok next) :
    perform (writeFile path code) files = (.ok (.written path), next) := by
  have haccess := perform_orFail (.unwritable path) (Files.Access.writeText path code) files
  have hrun : (Files.Access.writeText path code : StateM FileSystem _) files = (.ok (), next) := by
    simp [Files.Access.writeText, h]
  rw [hrun] at haccess
  exact perform_bind_of_ok haccess

theorem perform_writeFile_of_error {path code : String} {fault : FileError}
    (h : files.writeText path code = .error fault) :
    perform (writeFile path code) files = (.error (.unwritable path fault), files) := by
  have haccess := perform_orFail (.unwritable path) (Files.Access.writeText path code) files
  have hrun : (Files.Access.writeText path code : StateM FileSystem _) files =
      (.error fault, files) := by
    simp [Files.Access.writeText, h]
  rw [hrun] at haccess
  exact perform_bind_of_error haccess

/-- The file is written, or else nothing changes. -/
theorem perform_writeFile (files : FileSystem) (path code : String) :
    (∃ next, files.writeText path code = .ok next ∧
      perform (writeFile path code) files = (.ok (.written path), next)) ∨
    ∃ fault, fault.IsOutputFault ∧ perform (writeFile path code) files = (.error fault, files) := by
  cases hwrite : files.writeText path code with
  | ok next => exact Or.inl ⟨next, rfl, perform_writeFile_of_ok hwrite⟩
  | error fault => exact Or.inr ⟨.unwritable path fault, trivial, perform_writeFile_of_error hwrite⟩

/-- Only the directory of the path is made before the file is written, if it has a name. -/
theorem writeOutput_cases (path code : String) :
    (Files.parent? path).getD "" = "" ∧
      (writeOutput path code : Action Outcome) = writeFile path code ∨
      ∃ directory, Files.parent? path = some directory ∧
        (writeOutput path code : Action Outcome) = (do
          orFail (.noDirectory directory) (Files.Access.makeDirectories directory)
          writeFile path code) := by
  unfold writeOutput
  split
  · rename_i hparent
    exact Or.inl ⟨by rw [hparent]; rfl, rfl⟩
  · rename_i hparent
    exact Or.inl ⟨by rw [hparent]; rfl, rfl⟩
  · rename_i directory _ hparent
    exact Or.inr ⟨directory, hparent, rfl⟩

theorem perform_makeDirectories (files : FileSystem) (directory : String) :
    perform (orFail (.noDirectory directory) (Files.Access.makeDirectories directory)) files =
      ((files.makeDirectories directory).1.mapError (.noDirectory directory),
        (files.makeDirectories directory).2) :=
  perform_orFail _ _ files

/-- Writing the output ends with the file in its place, or with a fault and maybe some directories
on the way of the path. -/
theorem perform_writeOutput (files : FileSystem) (path code : String) :
    ∃ middle, files.Grown middle path ∧
      ((∃ next, middle.writeText path code = .ok next ∧
        perform (writeOutput path code) files = (.ok (.written path), next)) ∨
      ∃ fault, fault.IsOutputFault ∧
        perform (writeOutput path code) files = (.error fault, middle)) := by
  rcases writeOutput_cases path code with ⟨_, heq⟩ | ⟨directory, hparent, heq⟩
  · rw [heq]
    exact ⟨files, .refl _ _, perform_writeFile files path code⟩
  · rw [heq]
    have hgrown : files.Grown (files.makeDirectories directory).2 path :=
      (FileSystem.grown_makeDirectories files directory).of_parent? hparent
    refine ⟨_, hgrown, ?_⟩
    have haccess := perform_makeDirectories files directory
    cases hmade : (files.makeDirectories directory).1 with
    | ok made =>
        rw [hmade] at haccess
        rw [perform_bind_of_ok haccess]
        exact perform_writeFile _ path code
    | error fault =>
        rw [hmade] at haccess
        exact Or.inr ⟨.noDirectory directory fault, trivial, perform_bind_of_error haccess⟩

/-- With nothing in the way of the path the file is written, after the directories around it have
been made. -/
theorem perform_writeOutput_of_clear (h : files.Clear path) (code : String) :
    ∃ next, perform (writeOutput path code) files = (.ok (.written path), next) := by
  obtain ⟨directory, middle, hparent, hmade, hpassable, hplace⟩ := h.exists_makeDirectories
  have hgrown := (FileSystem.grown_makeDirectories files directory).of_parent? hparent
  rw [hmade] at hgrown
  obtain ⟨next, hwrite⟩ := h.exists_writeText hgrown hpassable hplace code
  refine ⟨next, ?_⟩
  rcases writeOutput_cases path code with ⟨hnone, heq⟩ | ⟨other, hother, heq⟩
  · rw [heq]
    obtain rfl : directory = "" := by simpa [hparent] using hnone
    obtain rfl : files = middle := congrArg Prod.snd hmade
    exact perform_writeFile_of_ok hwrite
  · obtain rfl := Option.some.inj (hparent.symm.trans hother)
    have haccess := perform_makeDirectories files directory
    rw [hmade] at haccess
    rw [heq, perform_bind_of_ok haccess]
    exact perform_writeFile_of_ok hwrite

theorem checkOutput_cases (files : FileSystem) (style : Diff.Style) (path code : String) :
    (∃ current, CurrentText files path current) ∨ ∃ fault, fault.IsOutputFault ∧
      perform (checkOutput style path code) files = (.error fault, files) := by
  cases hread : files.readText path with
  | ok text => exact Or.inl ⟨text, Or.inl hread⟩
  | error fault =>
      by_cases hfault : fault = .notFound
      · exact Or.inl ⟨"", Or.inr ⟨hfault ▸ hread, rfl⟩⟩
      · have hcurrent : perform (currentText path) files =
            (.error (.unreadableOutput path fault), files) := by
          rw [currentText, perform_bind_of_ok (perform_readResult hread)]
          cases fault <;> first | rfl | exact absurd rfl hfault
        exact Or.inr ⟨.unreadableOutput path fault, trivial, perform_bind_of_error hcurrent⟩

/-- How the last step of `generate` ends: what it returns and the file system after it, given the
output and whether it is only compared. -/
inductive Delivered (files : FileSystem) (style : Diff.Style) (code : String) :
    Option String → Bool → Except CommandError Outcome → FileSystem → Prop where
  | written {path : String} {next : FileSystem} (hwritten : files.Written next path code) :
      Delivered files style code (some path) false (.ok (.written path)) next
  | printed : Delivered files style code none false (.ok (.printed code)) files
  | compared {path current : String} (hcurrent : CurrentText files path current) :
      Delivered files style code (some path) true
        (.ok (if current = code then .upToDate path
          else .stale path (Diff.report style path current code))) files
  | noOutput : Delivered files style code none true (.error .noOutput) files
  | failed {path : String} {isCheck : Bool} {fault : CommandError} {next : FileSystem}
      (hfault : fault.IsOutputFault) (hgrown : files.Grown next path)
      (hsame : isCheck = true → next = files) :
      Delivered files style code (some path) isCheck (.error fault) next

theorem delivered (files : FileSystem) (style : Diff.Style) (output : Option String)
    (isCheck : Bool) (code : String) :
    Delivered files style code output isCheck
      (perform (deliver style output isCheck code) files).1
      (perform (deliver style output isCheck code) files).2 := by
  match output, isCheck with
  | none, true => exact .noOutput
  | none, false => exact .printed
  | some path, true =>
      change Delivered _ _ _ _ _ (perform (checkOutput style path code) files).1
        (perform (checkOutput style path code) files).2
      rcases checkOutput_cases files style path code with
        ⟨current, hcurrent⟩ | ⟨fault, hfault, hrun⟩
      · rw [perform_checkOutput hcurrent]
        exact .compared hcurrent
      · rw [hrun]
        exact .failed hfault (.refl _ _) fun _ => rfl
  | some path, false =>
      change Delivered _ _ _ _ _ (perform (writeOutput path code) files).1
        (perform (writeOutput path code) files).2
      obtain ⟨middle, hgrown, ⟨next, hwrite, hrun⟩ | ⟨fault, hfault, hrun⟩⟩ :=
        perform_writeOutput files path code
      · rw [hrun]
        exact .written (FileSystem.written_of_writeText hgrown hwrite)
      · rw [hrun]
        exact .failed hfault hgrown fun h => nomatch h

variable {result : Except CommandError Outcome}

/-- Either something that `generate` reads is at fault, or it delivers the code of the schema. -/
theorem generate_cases (hplain : Unformatted files options)
    (hrun : perform (generate surroundings options) files = (result, next)) :
    ((∃ fault, result = .error fault) ∧ next = files ∧
      ∀ config schema generated, ¬ Prepared files options config schema generated) ∨
    ∃ config schema generated, Prepared files options config schema generated ∧
      Delivered files surroundings.style generated.code (options.out <|> config.output)
        options.check result next := by
  by_cases hprepared : ∃ config schema generated,
      Prepared files options config schema generated
  · obtain ⟨config, schema, generated, h⟩ := hprepared
    have hdelivered := delivered files surroundings.style (options.out <|> config.output)
      options.check generated.code
    rw [← perform_generate_of_prepared hplain h, hrun] at hdelivered
    exact Or.inr ⟨config, schema, generated, h, hdelivered⟩
  · have hnot config schema generated :
        ¬ Prepared files options config schema generated :=
      fun h => hprepared ⟨config, schema, generated, h⟩
    obtain ⟨fault, hfault⟩ := perform_generate_of_not_prepared hnot
    obtain ⟨rfl, rfl⟩ := Prod.mk.inj (hrun.symm.trans hfault)
    exact Or.inl ⟨⟨fault, rfl⟩, rfl, hnot⟩

/-- Every file is as it was: none is new, none is gone and none has another text. -/
def SameFiles (files next : FileSystem) : Prop :=
  next.workingDirectory = files.workingDirectory ∧ ∀ location text,
    next.get? location = some (.file text) ↔ files.get? location = some (.file text)

theorem Delivered.written_inv {style : Diff.Style} {code : String} {output : Option String}
    {isCheck : Bool}
    (h : Delivered files style code output isCheck (.ok (.written path)) next) :
    output = some path ∧ isCheck = false ∧ files.Written next path code := by
  generalize hresult : Except.ok (Outcome.written path) = result at h
  cases h with
  | written hwritten =>
      cases hresult
      exact ⟨rfl, rfl, hwritten⟩
  | compared => split at hresult <;> cases hresult
  | _ => cases hresult

/-- Whatever was not written is as it was. -/
theorem Delivered.sameFiles {style : Diff.Style} {code : String} {output : Option String}
    {isCheck : Bool} (h : Delivered files style code output isCheck result next)
    (hnot : ∀ path, result ≠ .ok (.written path)) :
    SameFiles files next ∧ (isCheck = true ∨ (∃ outcome, result = .ok outcome) → next = files) := by
  cases h with
  | written => exact absurd rfl (hnot _)
  | failed _ hgrown hsame =>
      refine ⟨⟨hgrown.workingDirectory_eq, fun _ _ => hgrown.file_iff⟩, ?_⟩
      rintro (hcheck | ⟨outcome, houtcome⟩)
      · exact hsame hcheck
      · cases houtcome
  | _ => exact ⟨⟨rfl, fun _ _ => Iff.rfl⟩, fun _ => rfl⟩

/-- A file is written only to hold the code of the schema. -/
theorem written_of_generate (hplain : Unformatted files options)
    (hrun : perform (generate surroundings options) files = (.ok (.written path), next)) :
    options.check = false ∧ ∃ config schema generated,
      Prepared files options config schema generated ∧
        (options.out <|> config.output) = some path ∧ files.Written next path generated.code := by
  rcases generate_cases hplain hrun with
    ⟨⟨fault, hfault⟩, _⟩ | ⟨config, schema, generated, hprepared, hdelivered⟩
  · cases hfault
  · obtain ⟨hout, hcheck, hwritten⟩ := hdelivered.written_inv
    exact ⟨hcheck, config, schema, generated, hprepared, hout, hwritten⟩

theorem sameFiles_of_generate (hplain : Unformatted files options)
    (hrun : perform (generate surroundings options) files = (result, next))
    (hnot : ∀ path, result ≠ .ok (.written path)) :
    SameFiles files next ∧
      (options.check = true ∨ (∃ outcome, result = .ok outcome) → next = files) := by
  rcases generate_cases hplain hrun with
    ⟨_, rfl, _⟩ | ⟨config, schema, generated, _, hdelivered⟩
  · exact ⟨⟨rfl, fun _ _ => Iff.rfl⟩, fun _ => rfl⟩
  · exact hdelivered.sameFiles hnot

/-- The path is apart from everything that `generate` reads: it leads neither to the schema nor to
the configuration, and neither to nor through the place where a configuration would be found. -/
structure Apart (files : FileSystem) (options : GenerateOptions) (schema path : String) :
    Prop where
  schema_ne : files.destination schema ≠ files.destination path
  config_ne : ∀ config, options.config = some config →
    files.destination config ≠ files.destination path
  not_through : options.config = none →
    ¬ files.Through path (FileSystem.child files.workingDirectory configName)

theorem locate_configName (hhome : files.get? files.workingDirectory = some .directory) :
    files.locate configName = .ok (FileSystem.child files.workingDirectory configName) := by
  have hpieces : Files.pieces configName = [configName] := by decide +kernel
  have hstart : files.start configName = files.workingDirectory := by
    rw [FileSystem.start, if_neg (by decide +kernel)]
  refine FileSystem.locate_eq_ok_iff.mpr ⟨by decide, ?_, ?_⟩
  · rw [hpieces, hstart, FileSystem.passable_cons_iff]
    refine ⟨hhome, fun before after heq hne => ?_⟩
    exact absurd (List.append_eq_nil_iff.mp heq.symm).2 hne
  · rw [FileSystem.destination, hpieces, hstart, List.foldl_cons, List.foldl_nil,
      FileSystem.advance, if_neg (by decide), if_neg (by decide)]

/-- What has been read before the file was written is read again afterwards. -/
theorem Prepared.of_written (h : Prepared files options config schema generated)
    (hhome : files.get? files.workingDirectory = some .directory)
    (hapart : Apart files options schema path) {code : String}
    (hwritten : files.Written next path code) :
    Prepared next options config schema generated := by
  refine ⟨?_, h.schema_eq, ?_⟩
  · have hconfig := h.config_eq
    cases hexplicit : options.config with
    | some explicit =>
        rw [hexplicit] at hconfig
        obtain ⟨text, htext, hfile⟩ := loadConfig_eq_ok_iff.mp hconfig
        exact loadConfig_eq_ok_iff.mpr ⟨text,
          hwritten.readText_of_ne htext (hapart.config_ne explicit hexplicit), hfile⟩
    | none =>
        have hnot := hapart.not_through hexplicit
        have hat : next.at? configName = files.at? configName :=
          hwritten.at?_of_not_through (locate_configName hhome) hnot
        rw [hexplicit, perform_findConfig_none] at hconfig
        rw [perform_findConfig_none, hat]
        split at hconfig
        · rename_i hfound
          obtain ⟨text, htext, hfile⟩ := loadConfig_eq_ok_iff.mp hconfig
          have hne : files.destination configName ≠ files.destination path := by
            obtain ⟨_, _, hdestination⟩ :=
              FileSystem.locate_eq_ok_iff.mp (locate_configName hhome)
            rw [← hdestination]
            intro heq
            exact hnot (heq ▸ files.through_destination path)
          rw [if_pos hfound]
          exact loadConfig_eq_ok_iff.mpr ⟨text, hwritten.readText_of_ne htext hne, hfile⟩
        · rename_i hfound
          rw [if_neg hfound]
          exact hconfig
  · obtain ⟨text, document, htext, hdocument, hgenerate⟩ :=
      generateFrom_eq_ok_iff.mp h.generated_eq
    exact generateFrom_eq_ok_iff.mpr ⟨text, document,
      hwritten.readText_of_ne htext hapart.schema_ne, hdocument, hgenerate⟩

end SchemaWire.Cli
