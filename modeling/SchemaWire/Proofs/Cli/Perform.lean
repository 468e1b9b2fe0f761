import SchemaWire.Cli.Generation
import SchemaWire.Proofs.Files.Change

/-!
Running the steps of a command on a file system. Finding the configuration and generating the module
only read files; what they come to is stated by the files they read. The run of `generate` is then
its last step, on the code that the earlier ones have come to.
-/
namespace SchemaWire.Cli

open Files (FileSystem FileError)

variable {α β : Type} {files next : FileSystem}

/-- An action of a command on files. -/
abbrev Action := ExceptT CommandError (StateM FileSystem)

/-- What an action comes to, and the file system after it. -/
def perform (action : Action α) (files : FileSystem) : Except CommandError α × FileSystem :=
  action.run files

theorem perform_pure (value : α) (files : FileSystem) :
    perform (pure value) files = (.ok value, files) := rfl

theorem perform_throw (fault : CommandError) (files : FileSystem) :
    perform (throw fault : Action α) files = (.error fault, files) := rfl

/-- After its first part an action goes on, or passes on the fault. -/
theorem perform_bind (action : Action α) (rest : α → Action β) (files : FileSystem) :
    perform (action >>= rest) files =
      ExceptT.bindCont rest (perform action files).1 (perform action files).2 := rfl

theorem perform_bind_of_ok {action : Action α} {rest : α → Action β} {value : α}
    (h : perform action files = (.ok value, next)) :
    perform (action >>= rest) files = perform (rest value) next := by
  rw [perform_bind, h]
  rfl

theorem perform_bind_of_error {action : Action α} {rest : α → Action β} {fault : CommandError}
    (h : perform action files = (.error fault, next)) :
    perform (action >>= rest) files = (.error fault, next) := by
  rw [perform_bind, h]
  rfl

theorem perform_access (access : StateM FileSystem α) (files : FileSystem) :
    perform (liftM access : Action α) files = (.ok (access files).1, (access files).2) := rfl

/-- An access leaves what it comes to, its fault explained. -/
theorem perform_orFail (explain : FileError → CommandError)
    (access : StateM FileSystem (Except FileError α)) (files : FileSystem) :
    perform (orFail explain access) files =
      ((access files).1.mapError explain, (access files).2) := by
  rw [orFail, perform_bind_of_ok (perform_access access files)]
  cases (access files).1 <;> rfl

theorem perform_readResult {path : String} {result : Except FileError String}
    (h : files.readText path = result) :
    perform (liftM (Files.Access.readText path : StateM FileSystem _) : Action _) files =
      (.ok result, files) :=
  h ▸ perform_access (Files.Access.readText path) files

theorem perform_readText (explain : FileError → CommandError) (path : String)
    (files : FileSystem) :
    perform (orFail explain (Files.Access.readText path)) files =
      ((files.readText path).mapError explain, files) :=
  perform_orFail explain (Files.Access.readText path) files

/-- An action that leaves the file system as it is. -/
def Reads (action : Action α) : Prop :=
  ∀ files, (perform action files).2 = files

theorem reads_bind {action : Action α} {rest : α → Action β} (h : Reads action)
    (hrest : ∀ value, Reads (rest value)) : Reads (action >>= rest) := by
  intro files
  rw [perform_bind, h files]
  cases (perform action files).1 with
  | ok value => exact hrest value files
  | error fault => rfl

theorem reads_readText (explain : FileError → CommandError) (path : String) :
    Reads (orFail explain (Files.Access.readText path)) := by
  intro files
  rw [perform_readText]

theorem reads_loadConfig (path : String) : Reads (loadConfig path) := by
  refine reads_bind (reads_readText _ path) fun text files => ?_
  split <;> rfl

theorem reads_findConfig (explicit : Option String) : Reads (findConfig explicit) := by
  cases explicit with
  | some path => exact reads_loadConfig path
  | none =>
      refine reads_bind (fun files => rfl) fun found => ?_
      cases found with
      | true => exact reads_loadConfig configName
      | false => exact fun files => rfl

theorem reads_loadSchema (path : String) : Reads (loadSchema path) := by
  refine reads_bind (reads_readText _ path) fun text files => ?_
  split <;> rfl

theorem reads_generateFrom (path : String) : Reads (generateFrom path) := by
  refine reads_bind (reads_loadSchema path) fun document files => ?_
  split <;> rfl

theorem perform_bind_eq_ok_iff {action : Action α} {rest : α → Action β} {value : β}
    (h : Reads action) : (perform (action >>= rest) files).1 = .ok value ↔
      ∃ middle, (perform action files).1 = .ok middle ∧
        (perform (rest middle) files).1 = .ok value := by
  rw [perform_bind, h files]
  cases (perform action files).1 with
  | ok middle => simp [ExceptT.bindCont, perform, ExceptT.run]
  | error fault =>
      constructor
      · intro h
        cases h
      · rintro ⟨_, h, _⟩
        cases h

/-- A text is read if the file is there, whatever explains that it is not. -/
theorem perform_readText_eq_ok_iff {explain : FileError → CommandError} {path text : String} :
    (perform (orFail explain (Files.Access.readText path)) files).1 = .ok text ↔
      files.readText path = .ok text := by
  rw [perform_readText, mapError_eq_ok_iff]

theorem loadConfig_eq_ok_iff {path : String} {config : Config} :
    (perform (loadConfig path) files).1 = .ok config ↔
      ∃ text, files.readText path = .ok text ∧ Config.ofFile? path text = some config := by
  rw [loadConfig, perform_bind_eq_ok_iff (reads_readText _ path)]
  refine exists_congr fun text => and_congr perform_readText_eq_ok_iff ?_
  cases Config.ofFile? path text <;> simp [perform_pure, perform_throw]

theorem loadSchema_eq_ok_iff {path : String} {document : SchemaDocument} :
    (perform (loadSchema path) files).1 = .ok document ↔ ∃ text, files.readText path = .ok text ∧
      SchemaDocument.ofText (SchemaFormat.ofPath path) text = .ok document := by
  rw [loadSchema, perform_bind_eq_ok_iff (reads_readText _ path)]
  refine exists_congr fun text => and_congr perform_readText_eq_ok_iff ?_
  cases SchemaDocument.ofText (SchemaFormat.ofPath path) text <;>
    simp [perform_pure, perform_throw]

/-- The module of a schema is the one that its text describes. -/
theorem generateFrom_eq_ok_iff {path : String} {generated : Generated} :
    (perform (generateFrom path) files).1 = .ok generated ↔
      ∃ text document, files.readText path = .ok text ∧
        SchemaDocument.ofText (SchemaFormat.ofPath path) text = .ok document ∧
        document.generate = .ok generated := by
  rw [generateFrom, perform_bind_eq_ok_iff (reads_loadSchema path)]
  simp only [loadSchema_eq_ok_iff]
  constructor
  · rintro ⟨document, ⟨text, htext, hdocument⟩, h⟩
    refine ⟨text, document, htext, hdocument, ?_⟩
    cases hgenerate : document.generate <;> simp_all [perform_pure, perform_throw]
  · rintro ⟨text, document, htext, hdocument, hgenerate⟩
    refine ⟨document, ⟨text, htext, hdocument⟩, ?_⟩
    rw [hgenerate]
    rfl

/-- Without a configuration of its own a command takes the one of the working directory, if there is
something of this name. -/
theorem perform_findConfig_none (files : FileSystem) : perform (findConfig none) files =
    if (files.at? configName).isSome then perform (loadConfig configName) files
    else (.ok .default, files) := by
  change perform (if (files.at? configName).isSome = true then loadConfig configName
    else pure .default) files = _
  split <;> rfl

/-- What `generate` has found before it prints, writes or compares anything. -/
structure Prepared (files : FileSystem) (options : GenerateOptions) (config : Config)
    (schema : String) (generated : Generated) : Prop where
  config_eq : (perform (findConfig options.config) files).1 = .ok config
  schema_eq : (options.schema <|> config.schema) = some schema
  generated_eq : (perform (generateFrom schema) files).1 = .ok generated

/-- The last step of `generate`. -/
def deliver (style : Diff.Style) (output : Option String) (isCheck : Bool) (code : String) :
    Action Outcome :=
  match output, isCheck with
  | none, true => throw .noOutput
  | none, false => return .printed code
  | some path, true => checkOutput style path code
  | some path, false => writeOutput path code

/-- No formatter is asked for, neither by the options nor by the configuration. -/
def Unformatted (files : FileSystem) (options : GenerateOptions) : Prop :=
  options.format = false ∧ ∀ config, (perform (findConfig options.config) files).1 = .ok config →
    config.formatter.isEnabled = false

variable {surroundings : Surroundings} {options : GenerateOptions} {config : Config}
  {schema : String} {generated : Generated}

theorem finishCode_of_unformatted (hplain : Unformatted files options)
    (hconfig : (perform (findConfig options.config) files).1 = .ok config) (code : String) :
    finishCode surroundings config.formatter options.format code = .ok code := by
  simp [finishCode, hplain.1, hplain.2 config hconfig]

theorem perform_generate_of_prepared (hplain : Unformatted files options)
    (h : Prepared files options config schema generated) :
    perform (generate surroundings options) files = perform (deliver surroundings.style
      (options.out <|> config.output) options.check generated.code) files := by
  have hconfig : perform (findConfig options.config) files = (.ok config, files) :=
    Prod.ext h.config_eq (reads_findConfig _ files)
  have hgenerated : perform (generateFrom schema) files = (.ok generated, files) :=
    Prod.ext h.generated_eq (reads_generateFrom _ files)
  have hcode : perform (ExceptT.mk (pure (finishCode surroundings config.formatter options.format
      generated.code)) : Action String) files = (.ok generated.code, files) := by
    rw [finishCode_of_unformatted hplain h.config_eq]
    rfl
  rw [generate, perform_bind_of_ok hconfig]
  simp only [h.schema_eq]
  rw [perform_bind_of_ok hgenerated, perform_bind_of_ok hcode]
  rfl

/-- A fault on the way leaves the files as they are. -/
theorem perform_generate_of_not_prepared
    (h : ∀ config schema generated, ¬ Prepared files options config schema generated) :
    ∃ fault, perform (generate surroundings options) files = (.error fault, files) := by
  rw [generate]
  cases hconfig : (perform (findConfig options.config) files).1 with
  | error fault =>
      exact ⟨fault, perform_bind_of_error (Prod.ext hconfig (reads_findConfig _ files))⟩
  | ok config =>
      rw [perform_bind_of_ok (Prod.ext hconfig (reads_findConfig _ files))]
      cases hschema : (options.schema <|> config.schema) with
      | none => exact ⟨_, rfl⟩
      | some schema =>
          cases hgenerated : (perform (generateFrom schema) files).1 with
          | error fault =>
              exact ⟨fault,
                perform_bind_of_error (Prod.ext hgenerated (reads_generateFrom _ files))⟩
          | ok generated => exact absurd ⟨hconfig, hschema, hgenerated⟩ (h _ _ _)

/-- The text that is compared with new code. -/
def CurrentText (files : FileSystem) (path current : String) : Prop :=
  files.readText path = .ok current ∨ files.readText path = .error .notFound ∧ current = ""

theorem perform_currentText {path current : String} (h : CurrentText files path current) :
    perform (currentText path) files = (.ok current, files) := by
  rcases h with htext | ⟨hnone, rfl⟩
  · rw [currentText, perform_bind_of_ok (perform_readResult htext)]
    rfl
  · rw [currentText, perform_bind_of_ok (perform_readResult hnone)]
    rfl

theorem perform_checkOutput {path current : String} (h : CurrentText files path current)
    (style : Diff.Style) (code : String) : perform (checkOutput style path code) files =
      (.ok (if current = code then .upToDate path
        else .stale path (Diff.report style path current code)), files) := by
  rw [checkOutput, perform_bind_of_ok (perform_currentText h)]
  split <;> rfl

end SchemaWire.Cli
