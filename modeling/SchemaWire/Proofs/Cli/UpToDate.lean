import SchemaWire.Proofs.Cli.Output

/-!
Generating, comparing and validating agree. A comparison right after a file was written finds it up
to date if the path is apart from what `generate` reads; a path through the place of the
configuration is the exception, since the directories on its way are then taken for one. A
comparison decides by the text alone, and generation succeeds where validation does.
-/
namespace SchemaWire.Cli

open Files (FileSystem)

variable {files next : FileSystem} {surroundings : Surroundings} {options : GenerateOptions}
  {config : Config} {schema path : String} {generated : Generated}
  {result : Except CommandError Outcome}

theorem Prepared.check (h : Prepared files options config schema generated) (isCheck : Bool) :
    Prepared files { options with check := isCheck } config schema generated :=
  ⟨h.config_eq, h.schema_eq, h.generated_eq⟩

theorem Prepared.unformatted (h : Prepared files options config schema generated)
    (hformat : options.format = false) (henabled : config.formatter.isEnabled = false) :
    Unformatted files options := by
  refine ⟨hformat, fun found hfound => ?_⟩
  obtain rfl := Except.ok.inj (h.config_eq.symm.trans hfound)
  exact henabled

/-- A comparison decides by the text at the path, of which a missing file has none. -/
theorem generate_of_check (hplain : Unformatted files options)
    (h : Prepared files options config schema generated) (hcheck : options.check = true)
    (hout : (options.out <|> config.output) = some path) {current : String}
    (hcurrent : CurrentText files path current) : perform (generate surroundings options) files =
      (.ok (if current = generated.code then .upToDate path
        else .stale path (Diff.report surroundings.style path current generated.code)),
          files) := by
  rw [perform_generate_of_prepared hplain h, hcheck, hout]
  exact perform_checkOutput hcurrent surroundings.style generated.code

/-- What was just written is up to date. -/
theorem upToDate_of_written (hplain : Unformatted files options)
    (hrun : perform (generate surroundings options) files = (.ok (.written path), next))
    (hhome : files.get? files.workingDirectory = some .directory)
    (hapart : ∀ config schema generated, Prepared files options config schema generated →
      Apart files options schema path) :
    perform (generate surroundings { options with check := true }) next =
      (.ok (.upToDate path), next) := by
  obtain ⟨_, config, schema, generated, h, hout, hwritten⟩ := written_of_generate hplain hrun
  have hagain := (h.of_written hhome (hapart _ _ _ h) hwritten).check true
  have hplainAgain := hagain.unformatted hplain.1 (hplain.2 config h.config_eq)
  rw [generate_of_check hplainAgain hagain rfl hout (Or.inl hwritten.readText_eq), if_pos rfl]

theorem exists_validate_iff : (∃ summary, (perform (validate schema) files).1 = .ok summary) ↔
    ∃ generated, (perform (generateFrom schema) files).1 = .ok generated := by
  simp only [validate, perform_bind_eq_ok_iff (reads_generateFrom schema)]
  constructor
  · rintro ⟨_, generated, hgenerated, _⟩
    exact ⟨generated, hgenerated⟩
  · rintro ⟨generated, hgenerated⟩
    exact ⟨_, generated, hgenerated, rfl⟩

/-- With nothing in the way of the path, the code of the schema is written or compared. -/
theorem generate_of_clear (surroundings : Surroundings) (hplain : Unformatted files options)
    (h : Prepared files options config schema generated)
    (hout : (options.out <|> config.output) = some path) (hclear : files.Clear path) :
    ∃ outcome, (perform (generate surroundings options) files).1 = .ok outcome ∧
      (options.check = false → outcome = .written path) := by
  cases hcheck : options.check with
  | false =>
      obtain ⟨next, hrun⟩ := perform_writeOutput_of_clear hclear generated.code
      refine ⟨.written path, ?_, fun _ => rfl⟩
      rw [perform_generate_of_prepared hplain h, hout, hcheck]
      exact congrArg Prod.fst hrun
  | true =>
      obtain ⟨current, hcurrent⟩ : ∃ current, CurrentText files path current :=
        hclear.readText_cases.elim (fun ⟨text, htext⟩ => ⟨text, .inl htext⟩)
          fun hmissing => ⟨"", .inr ⟨hmissing, rfl⟩⟩
      rw [generate_of_check hplain h hcheck hout hcurrent]
      exact ⟨_, rfl, fun hwrite => (nomatch hwrite)⟩

/-- Generation succeeds where validation does, if nothing is in the way of the output or the output
could be accessed after all. -/
theorem exists_generate_iff_validate (hplain : Unformatted files options)
    (hrun : perform (generate surroundings options) files = (result, next))
    (hconfig : (perform (findConfig options.config) files).1 = .ok config)
    (hschema : (options.schema <|> config.schema) = some schema)
    (hout : (options.out <|> config.output) = some path)
    (haccess : files.Clear path ∨ ∀ fault, result = .error fault → ¬ fault.IsOutputFault) :
    (∃ outcome, result = .ok outcome) ↔
      ∃ summary, (perform (validate schema) files).1 = .ok summary := by
  rw [exists_validate_iff]
  constructor
  · rintro ⟨outcome, rfl⟩
    rcases generate_cases hplain hrun with
      ⟨⟨fault, hfault⟩, _⟩ | ⟨config', schema', generated, hprepared, _⟩
    · cases hfault
    · obtain rfl := Except.ok.inj (hconfig.symm.trans hprepared.config_eq)
      obtain rfl := Option.some.inj (hschema.symm.trans hprepared.schema_eq)
      exact ⟨generated, hprepared.generated_eq⟩
  · rintro ⟨generated, hgenerated⟩
    have h : Prepared files options config schema generated := ⟨hconfig, hschema, hgenerated⟩
    rcases haccess with hclear | hfault
    · obtain ⟨outcome, hok, _⟩ := generate_of_clear surroundings hplain h hout hclear
      exact ⟨outcome, (congrArg Prod.fst hrun).symm.trans hok⟩
    · have hdelivered := delivered files surroundings.style (options.out <|> config.output)
        options.check generated.code
      rw [← perform_generate_of_prepared hplain h, hrun, hout] at hdelivered
      generalize options.check = isCheck at hdelivered
      cases hdelivered with
      | written | compared => exact ⟨_, rfl⟩
      | failed houtput => exact absurd houtput (hfault _ rfl)

/-- What `generate` does without a formatter. A file changes only if it is said to be written; then
it is the only one, the directories on its way are there, and it holds the code of the schema. Apart
from the schema and the configuration it is then found up to date. A comparison decides by the text
at the path. With nothing in the way of the path a file is written, and generation succeeds where
validation does; it also does if the output could be accessed after all. -/
theorem generate_writes_and_compares (surroundings : Surroundings)
    (hplain : Unformatted files options)
    (hrun : perform (generate surroundings options) files = (result, next)) :
    (∀ path, result = .ok (.written path) →
      options.check = false ∧ ∃ config schema generated,
        Prepared files options config schema generated ∧
          (options.out <|> config.output) = some path ∧
          files.Written next path generated.code) ∧
    ((∀ path, result ≠ .ok (.written path)) → SameFiles files next ∧
      (options.check = true ∨ (∃ outcome, result = .ok outcome) → next = files)) ∧
    (∀ path, result = .ok (.written path) →
      files.get? files.workingDirectory = some .directory →
      (∀ config schema generated, Prepared files options config schema generated →
        Apart files options schema path) →
      perform (generate surroundings { options with check := true }) next =
        (.ok (.upToDate path), next)) ∧
    ∀ config schema path, (perform (findConfig options.config) files).1 = .ok config →
      (options.schema <|> config.schema) = some schema →
      (options.out <|> config.output) = some path →
      (options.check = true → ∀ generated current,
        (perform (generateFrom schema) files).1 = .ok generated → CurrentText files path current →
        result = .ok (if current = generated.code then .upToDate path
          else .stale path (Diff.report surroundings.style path current generated.code))) ∧
      (files.Clear path → options.check = false → ∀ generated,
        (perform (generateFrom schema) files).1 = .ok generated →
          result = .ok (.written path)) ∧
      (files.Clear path ∨ (∀ fault, result = .error fault → ¬ fault.IsOutputFault) →
        ((∃ outcome, result = .ok outcome) ↔
          ∃ summary, (perform (validate schema) files).1 = .ok summary)) := by
  refine ⟨?_, sameFiles_of_generate hplain hrun, ?_, ?_⟩
  · rintro path rfl
    exact written_of_generate hplain hrun
  · rintro path rfl hhome hapart
    exact upToDate_of_written hplain hrun hhome hapart
  · intro config schema path hconfig hschema hout
    have hresult := congrArg Prod.fst hrun
    refine ⟨fun hcheck generated current hgenerated hcurrent => ?_,
      fun hclear hcheck generated hgenerated => ?_,
      exists_generate_iff_validate hplain hrun hconfig hschema hout⟩
    · have h : Prepared files options config schema generated := ⟨hconfig, hschema, hgenerated⟩
      exact hresult.symm.trans
        (congrArg Prod.fst (generate_of_check hplain h hcheck hout hcurrent))
    · have h : Prepared files options config schema generated := ⟨hconfig, hschema, hgenerated⟩
      obtain ⟨outcome, hok, hwritten⟩ := generate_of_clear surroundings hplain h hout hclear
      rw [← hwritten hcheck, ← hok]
      exact hresult.symm

/-- A working directory with an empty schema and nothing else. -/
def schemaFiles : FileSystem :=
  (FileSystem.empty "work").put "/work/s.json" (.file "\x7b\x7d")

/-- The options that generate the module of this schema at a path. -/
def outputOptions (path : String) : GenerateOptions :=
  ⟨none, some "s.json", some path, false, false⟩

/-- No formatters, and reports without marks. -/
def plainSurroundings : Surroundings :=
  ⟨fun _ => none, .plain⟩

theorem unformatted_outputOptions (path : String) :
    Unformatted schemaFiles (outputOptions path) := by
  refine ⟨rfl, fun config hconfig => ?_⟩
  have hfound : (perform (findConfig none) schemaFiles).1.toOption = some Config.default := by
    decide +kernel
  obtain rfl := Except.ok.inj (hconfig.symm.trans (toOption_eq_some_iff.mp hfound))
  rfl

/-- Nothing is in the way of a file in a directory that has still to be made. -/
theorem clear_schemaFiles : schemaFiles.Clear "gen/api.ts" := by
  have hpieces : Files.pieces "gen/api.ts" = ["gen", "api.ts"] := by decide +kernel
  have hstart : schemaFiles.get? (schemaFiles.start "gen/api.ts") = some .directory := by
    decide +kernel
  have hgen : schemaFiles.get? (FileSystem.advance (schemaFiles.start "gen/api.ts") "gen") =
      none := by
    decide +kernel
  refine ⟨⟨["gen"], "api.ts", hpieces, by decide⟩, hstart, ?_, ?_, by decide +kernel⟩
  · rw [hpieces, FileSystem.unblocked_cons_iff, FileSystem.unblocked_cons_iff]
    refine ⟨by simp [hstart], by simp [hgen], fun before after heq hafter => ?_⟩
    exact absurd (List.append_eq_nil_iff.mp heq.symm).2 hafter
  · intro before after heq hafter
    have hprefix : before <+: ["gen"] ++ ["api.ts"] := ⟨after, heq.symm.trans hpieces⟩
    rcases List.prefix_concat_iff.mp hprefix with rfl | hbefore
    · rw [hpieces] at heq
      exact absurd (List.self_eq_append_right.mp heq) hafter
    · have hapart : ∀ before ∈ ["gen"].inits,
          before.foldl FileSystem.advance (schemaFiles.start "gen/api.ts") ≠
            schemaFiles.destination "gen/api.ts" := by
        decide +kernel
      exact hapart before ((List.mem_inits _ _).mpr hbefore)

/-- The directory is made, the file is written to it and then found up to date. -/
theorem generate_writes_and_compares_api :
    schemaFiles.Clear "gen/api.ts" ∧ schemaFiles.get? "/work/gen" = none ∧
      ∃ next, perform (generate plainSurroundings (outputOptions "gen/api.ts")) schemaFiles =
          (.ok (.written "gen/api.ts"), next) ∧
        next.get? "/work/gen" = some .directory ∧
        perform (generate plainSurroundings { outputOptions "gen/api.ts" with check := true })
          next = (.ok (.upToDate "gen/api.ts"), next) := by
  have hconfig : (perform (findConfig none) schemaFiles).1.toOption = some Config.default := by
    decide +kernel
  have hgenerated : (perform (generateFrom "s.json") schemaFiles).1.toOption.isSome = true := by
    decide +kernel
  obtain ⟨generated, hgenerated⟩ := Option.isSome_iff_exists.mp hgenerated
  have hplain := unformatted_outputOptions "gen/api.ts"
  have hresult := ((generate_writes_and_compares plainSurroundings hplain (Prod.eta _).symm).2.2.2 _
    _ _ (toOption_eq_some_iff.mp hconfig) rfl rfl).2.1 clear_schemaFiles rfl generated
    (toOption_eq_some_iff.mp hgenerated)
  have hrun := Prod.ext hresult rfl
  obtain ⟨hwritten, _, hagain, _⟩ := generate_writes_and_compares plainSurroundings hplain hrun
  obtain ⟨_, _, _, _, _, _, hnext⟩ := hwritten _ rfl
  refine ⟨clear_schemaFiles, by decide +kernel, _, hrun, ?_, hagain _ rfl (by decide +kernel) ?_⟩
  · have hpieces : Files.pieces "gen/api.ts" = ["gen"] ++ ["api.ts"] := by decide +kernel
    have hplace : ["gen"].foldl FileSystem.advance (schemaFiles.start "gen/api.ts") =
        "/work/gen" := by decide +kernel
    rw [← hplace]
    exact hnext.passable _ _ hpieces (by simp)
  · intro config schema generated h
    obtain rfl := Option.some.inj h.schema_eq
    exact ⟨by decide +kernel, fun _ heq => (nomatch heq), fun _ => by decide +kernel⟩

/-- A path through the place of the configuration is written but not found up to date: the directory
that was made there is taken for the configuration. -/
theorem exists_written_not_upToDate :
    ∃ next, perform (generate plainSurroundings (outputOptions "tswire.toml/api.ts")) schemaFiles =
        (.ok (.written "tswire.toml/api.ts"), next) ∧
      Unformatted schemaFiles (outputOptions "tswire.toml/api.ts") ∧
      schemaFiles.get? schemaFiles.workingDirectory = some .directory ∧
      schemaFiles.destination "s.json" ≠ schemaFiles.destination "tswire.toml/api.ts" ∧
      schemaFiles.destination configName ≠ schemaFiles.destination "tswire.toml/api.ts" ∧
      (perform (generate plainSurroundings
        { outputOptions "tswire.toml/api.ts" with check := true }) next).1 ≠
          .ok (.upToDate "tswire.toml/api.ts") := by
  have hwritten : (perform (generate plainSurroundings (outputOptions "tswire.toml/api.ts"))
      schemaFiles).1.toOption = some (.written "tswire.toml/api.ts") := by decide +kernel
  have hrun := Prod.ext (toOption_eq_some_iff.mp hwritten) rfl
  refine ⟨_, hrun, unformatted_outputOptions _, by decide +kernel, by decide +kernel,
    by decide +kernel, fun hagain => ?_⟩
  have hfailed : (perform (generate plainSurroundings
      { outputOptions "tswire.toml/api.ts" with check := true }) (perform (generate
        plainSurroundings (outputOptions "tswire.toml/api.ts")) schemaFiles).2).1.toOption =
      none := by
    decide +kernel
  cases hfailed.symm.trans (toOption_eq_some_iff.mpr hagain)

end SchemaWire.Cli
