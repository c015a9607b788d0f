import ApiProto.Command.Run

/-!
# What a failed run leaves behind

A conversion that fails before its text is printed has written nothing, and the file that held
standard input is removed whether the conversion fails or not. The directory for a text that goes to
standard output is removed only with the text: it remains when there is no text.

* `World.remove_write` — a new file that is written and removed leaves nothing.
* `runConversion_of_error` — a run without a text, with all that it has made.
* `run_of_error` — what is left of it: nothing if an output is given, the directory if none is.
-/

namespace ApiProto.Source.World

variable {w : World}

/-- A new file that is written and removed leaves nothing. -/
theorem remove_write {path : String} (h : ∀ entry ∈ w.texts, entry.1 ≠ path) (text : String) :
    (w.write path text).remove path = w := by
  have htexts : ∀ l : List (String × String), (∀ entry ∈ l, entry.1 ≠ path) →
      (insertEntry path text l).filter (fun entry => entry.1 != path) = l := by
    intro l hl
    induction l with
    | nil => simp [insertEntry]
    | cons entry rest ih =>
      have hne := hl entry List.mem_cons_self
      have hrest := ih fun other hother => hl other (List.mem_cons_of_mem _ hother)
      simp [insertEntry, hne, hrest]
  exact congrArg (fun texts => World.mk texts w.directories w.current w.faults) (htexts w.texts h)

/-- Files and directories are made and removed apart from each other. -/
theorem remove_makeDirectories (path directory : String) :
    (w.makeDirectories directory).remove path = (w.remove path).makeDirectories directory :=
  rfl

end ApiProto.Source.World

namespace ApiProto.Command

open Source

variable {t : Temporary} {settings : Settings} {input : String} {world : World} {e : Error}

/-- A conversion without a text writes nothing. -/
theorem Conversion.run_eq_of_error [Libraries] {c : Conversion} (h : c.text world = .error e) :
    c.run world = (.error e, world) := by
  unfold Conversion.run
  rw [h]

/-- The world in which a conversion takes place. -/
def Temporary.during (t : Temporary) (settings : Settings) (input : String) (world : World) : World :=
  t.openOutput settings (t.openInput settings input world)

/-- The file for the input is removed, whatever has been made for the output. -/
theorem Temporary.closeInput_during
    (hnew : settings.input = none → ∀ entry ∈ world.texts, entry.1 ≠ t.input) :
    t.closeInput settings (t.during settings input world) = t.openOutput settings world := by
  unfold closeInput during openInput openOutput
  by_cases hinput : settings.input.isNone = true
  · have hnew := hnew (Option.isNone_iff_eq_none.1 hinput)
    rw [if_pos hinput, if_pos hinput]
    by_cases houtput : settings.output.isNone = true
    · rw [if_pos houtput, if_pos houtput, World.remove_makeDirectories, World.remove_write hnew]
    · rw [if_neg houtput, if_neg houtput, World.remove_write hnew]
  · rw [if_neg hinput, if_neg hinput]

theorem runConversion_of_error [Libraries]
    (hnew : settings.input = none → ∀ entry ∈ world.texts, entry.1 ≠ t.input)
    (hfail : (t.conversion settings).text (t.during settings input world) = .error e) :
    runConversion t settings input world =
      ⟨1, announcement settings (t.conversion settings) ++ "Error:  " ++ e.message ++ "\n",
        t.openOutput settings world⟩ := by
  have hrun := Conversion.run_eq_of_error hfail
  unfold Temporary.during at hrun
  unfold runConversion
  dsimp only
  rw [hrun]
  dsimp only
  rw [← Temporary.during, Temporary.closeInput_during hnew]

/-- A run that fails because its description cannot be loaded, decoded, compiled or printed leaves
the world as it was if an output is given. If none is given, the directory for the output remains. -/
theorem run_of_error [Libraries] {arguments : List String}
    (hrequest : Request.ofArguments arguments = some (.convert settings))
    (hnew : settings.input = none → ∀ entry ∈ world.texts, entry.1 ≠ t.input)
    (hfail : (t.conversion settings).text (t.during settings input world) = .error e) :
    (run t arguments input world).status = 1 ∧
    (run t arguments input world).world =
      if settings.output.isSome then world else world.makeDirectories t.directory := by
  have hrun : run t arguments input world = runConversion t settings input world := by
    unfold run
    rw [hrequest]
  rw [hrun, runConversion_of_error hnew hfail]
  refine ⟨rfl, ?_⟩
  unfold Temporary.openOutput
  rcases settings.output with _ | output
  · rfl
  · rfl

/-- Names for the input and the output of a run. -/
def temporary : Temporary := ⟨"/tmp/input.yaml", "/tmp/output"⟩

/-- Nothing but a directory for what exists during a run only. -/
def emptyWorld : World := ⟨[], ["/tmp"], "/", []⟩

/-- The settings of a conversion of standard input to a file. -/
def toFile : Settings := { Settings.default with output := some "/w/pets.proto" }

theorem run_of_error_unfinishedList :
    (run temporary ["o2p", "--out", "/w/pets.proto"] "a: [" emptyWorld).status = 1 ∧
    (run temporary ["o2p", "--out", "/w/pets.proto"] "a: [" emptyWorld).world = emptyWorld := by
  have hrequest : Request.ofArguments ["o2p", "--out", "/w/pets.proto"] =
      some (.convert toFile) := by
    decide +kernel
  have hfails : ((temporary.conversion toFile).text
      (temporary.during toFile "a: [" emptyWorld)).toBool = false := by
    decide +kernel
  rcases htext : (temporary.conversion toFile).text
    (temporary.during toFile "a: [" emptyWorld) with e | text
  · exact run_of_error hrequest (fun _ _ h => nomatch h) htext
  · rw [htext] at hfails
    cases hfails

/-- Without a path for the output, the directory that was made for it is still there. -/
theorem directory_remains_unfinishedList :
    (run temporary ["o2p"] "a: [" emptyWorld).status = 1 ∧
    "/tmp/output" ∉ emptyWorld.directories ∧
    (run temporary ["o2p"] "a: [" emptyWorld).world.directories = ["/tmp", "/tmp/output"] := by
  decide +kernel

end ApiProto.Command
