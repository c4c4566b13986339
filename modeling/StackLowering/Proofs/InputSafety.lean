import StackLowering.Proofs.PathPlaces
import StackLowering.Proofs.TreeReading

/-!
# What a compilation does to its input

A compilation writes one file at most, and writes it after all else has succeeded. A destination is
refused where its path has the components of the input's path. A path with other components leads
to another file, unless it names the input in a roundabout way: with dots in front or inside, or
from the root. Then the input is replaced by its own assembly text.

The path beside the input that is taken when none is asked for has no such spelling.

## Main definitions

* `World.compile` — a compilation, as a step of a world
* `Compiled` — what a compilation does to the files
* `CompileRequest.Respells` — a request to write to the input by another path

## Main results

* `World.compiled` — the result of a compilation and what it leaves of the files, cause by cause
* `compile_keeps_input` — what becomes of the input
-/

namespace StackLowering

open Json (bind_eq_ok_iff)
open StackLowering.Path (place)

/-! ### Writing a file -/

namespace FileStore

variable {s : FileStore} {q file : List String} {content : ByteArray} {path : String}

theorem lookup_filter_of_ne (nodes : List (List String × Node)) (h : q ≠ file) :
    (nodes.filter (·.1 != file)).lookup q = nodes.lookup q := by
  induction nodes with
  | nil => rfl
  | cons x nodes ih =>
    obtain ⟨key, node⟩ := x
    by_cases hkey : key = file
    · subst hkey
      simp [List.lookup_cons, ih, beq_false_of_ne h]
    · simp [hkey, List.lookup_cons, ih]

theorem node?_put_self (h : file ≠ []) (node : Node) : (s.put file node).node? file = some node := by
  simp [node?, put, h]

theorem node?_put_of_ne (h : q ≠ file) (node : Node) : (s.put file node).node? q = s.node? q := by
  unfold node? put
  split_ifs
  · rfl
  · rw [List.lookup_cons, beq_false_of_ne h]
    exact lookup_filter_of_ne s.nodes h

/-- A walk that succeeds needs directories only. -/
theorem walk_of_directories {s' : FileStore}
    (hdirectories : ∀ q, s.node? q = some .directory → s'.node? q = some .directory) {slash : Bool}
    {directory : List String} {segments : List (List Char)} {t : Target}
    (h : s.walk slash directory segments = .ok t) : s'.walk slash directory segments = .ok t := by
  fun_induction FileStore.walk s slash directory segments with
  | case1 | case2 | case3 => exact h
  | case4 directory last hdot hdots =>
    rw [walk, if_neg hdot, if_neg hdots]
    exact h
  | case5 directory rest hrest ih =>
    rw [walk, if_pos rfl]
    · exact ih h
    · exact hrest
  | case6 directory rest hrest hdots ih =>
    rw [walk, if_neg hdots, if_pos rfl]
    · exact ih h
    · exact hrest
  | case7 directory next rest hrest hdot hdots place hplace ih =>
    have hplace' : s'.node? (directory ++ [.ofList next]) = some .directory :=
      hdirectories _ hplace
    rw [walk, if_neg hdot, if_neg hdots]
    · simp only [hplace']
      exact ih h
    · exact hrest
  | case8 => cases h
  | case9 => cases h

/-- A path that is resolved is not resolved otherwise after a file was written. -/
theorem resolve_put (hfile : s.node? file ≠ some .directory) {t : Target}
    (h : s.resolve path = .ok t) (node : Node) : (s.put file node).resolve path = .ok t := by
  refine walk_of_directories (fun q hq => ?_) h
  have hne : q ≠ file := by
    rintro rfl
    exact hfile hq
  rw [node?_put_of_ne hne, hq]

/-- What it means that a file is read. -/
theorem read_eq_ok_iff :
    s.read path = .ok content ↔
      ∃ t, s.resolve path = .ok t ∧ s.node? t.place = some (.file content) ∧ t.slash = false := by
  rw [read, bind_eq_ok_iff]
  refine exists_congr fun t => and_congr_right fun _ => ?_
  cases s.node? t.place with
  | none => simp [throw, throwThe, MonadExceptOf.throw]
  | some node =>
    cases node with
    | directory => simp [throw, throwThe, MonadExceptOf.throw]
    | file c => cases t.slash <;> simp [throw, throwThe, MonadExceptOf.throw, pure, Except.pure]

/-- A file at another place keeps its content. -/
theorem read_put_of_ne (hfile : s.node? file ≠ some .directory)
    (hne : place s.workingDirectory path ≠ file) (h : s.read path = .ok content) (node : Node) :
    (s.put file node).read path = .ok content := by
  obtain ⟨t, ht, hnode, hslash⟩ := read_eq_ok_iff.mp h
  rw [← place_of_resolve ht] at hne
  exact read_eq_ok_iff.mpr ⟨t, resolve_put hfile ht node, by rw [node?_put_of_ne hne, hnode], hslash⟩

/-- The file at the place that is written gets the content that is written. -/
theorem read_put_self (hfile : s.node? file ≠ some .directory) (hroot : file ≠ [])
    (hplace : place s.workingDirectory path = file) (h : s.read path = .ok content)
    (written : ByteArray) : (s.put file (.file written)).read path = .ok written := by
  obtain ⟨t, ht, -, hslash⟩ := read_eq_ok_iff.mp h
  rw [← place_of_resolve ht] at hplace
  exact read_eq_ok_iff.mpr
    ⟨t, resolve_put hfile ht _, by rw [hplace, node?_put_self hroot], hslash⟩

/-- A path is written to when it ends in a name that no directory has. -/
theorem writablePlace_eq_ok_iff :
    s.writablePlace path = .ok file ↔ ∃ t, s.resolve path = .ok t ∧ t.name.isSome ∧
      t.slash = false ∧ s.node? t.place ≠ some .directory ∧ t.place = file := by
  rw [writablePlace, bind_eq_ok_iff]
  refine exists_congr fun t => and_congr_right fun _ => ?_
  cases t.name <;> cases t.slash <;> cases s.node? t.place with
  | none => simp [throw, throwThe, MonadExceptOf.throw, bind, Except.bind, pure, Except.pure]
  | some node =>
    cases node <;>
      simp [throw, throwThe, MonadExceptOf.throw, bind, Except.bind, pure, Except.pure]

/-- A file is written at the place that the path leads to, where no directory stands. -/
theorem of_writablePlace (h : s.writablePlace path = .ok file) :
    file = place s.workingDirectory path ∧ file ≠ [] ∧ s.node? file ≠ some .directory := by
  obtain ⟨t, ht, hname, -, hnode, rfl⟩ := writablePlace_eq_ok_iff.mp h
  obtain ⟨name, hname⟩ := Option.isSome_iff_exists.mp hname
  exact ⟨place_of_resolve ht, by simp [Target.place, hname], hnode⟩

theorem exists_of_readText {text : String} (h : s.readText path = .ok text) :
    ∃ content, s.read path = .ok content := by
  obtain ⟨content, hcontent, -⟩ := bind_eq_ok_iff.mp h
  exact ⟨content, hcontent⟩

theorem exists_of_writeText {text : String} {s' : FileStore}
    (h : s.writeText path text = .ok s') :
    ∃ file, s.writablePlace path = .ok file ∧ s' = s.put file (.file text.toUTF8) := by
  obtain ⟨file, hfile, h⟩ := bind_eq_ok_iff.mp h
  cases h
  exact ⟨file, hfile, rfl⟩

end FileStore

/-! ### Requests -/

namespace CompileRequest

/-- The path that a request leads to write to, if it does not lead to print. -/
def outputPath (r : CompileRequest) : Option String :=
  match r.output with
  | some path => if Path.same path "-" then none else some path
  | none => some (Path.withExtension r.input assemblyExtension)

/-- The path to write to leads to the input, though it is not compared equal. -/
def Respells (r : CompileRequest) (directory : List String) : Prop :=
  ∃ path, r.outputPath = some path ∧ Path.same path r.input = false ∧
    place directory path = place directory r.input

variable {r : CompileRequest} {path : String} {directory : List String}

theorem destination_eq (r : CompileRequest) :
    destination r.input r.output = match r.outputPath with
      | none => .ok .printed
      | some path =>
        if Path.same path r.input then .error (.input (.overwrites path)) else .ok (.file path) := by
  unfold destination outputPath
  cases r.output with
  | none => rfl
  | some path => cases hprinted : Path.same path "-" <;> simp [hprinted, destination.guarded]

theorem of_destination_eq_file (h : destination r.input r.output = .ok (.file path)) :
    r.outputPath = some path ∧ Path.same path r.input = false := by
  rw [destination_eq] at h
  split at h
  · cases h
  · rename_i hpath
    split_ifs at h with hsame
    cases h
    exact ⟨hpath, Bool.eq_false_iff.mpr hsame⟩

/-- A path is refused exactly when it leads to the input and is no other spelling of its path. -/
theorem destination_eq_error_iff (r : CompileRequest) {path : String}
    (hpath : r.outputPath = some path) (directory : List String) :
    destination r.input r.output = .error (.input (.overwrites path)) ↔
      place directory path = place directory r.input ∧ ¬r.Respells directory := by
  rw [destination_eq, hpath]
  cases hsame : Path.same path r.input with
  | true =>
    refine iff_of_true (by simp [hsame]) ⟨Path.place_eq_of_same hsame directory, ?_⟩
    rintro ⟨path', hpath', hsame', -⟩
    cases hpath.symm.trans hpath'
    rw [hsame] at hsame'
    cases hsame'
  | false =>
    refine iff_of_false (by simp [hsame]) ?_
    rintro ⟨hplace, hrespells⟩
    exact hrespells ⟨path, hpath, hsame, hplace⟩

/-- The path that is taken when none is asked for respells nothing. -/
theorem Respells.isSome_output (h : r.Respells directory) : r.output.isSome = true := by
  obtain ⟨path, hpath, hsame, hplace⟩ := h
  unfold outputPath at hpath
  split at hpath
  · rename_i houtput
    rw [houtput]
    rfl
  · cases hpath
    rw [Path.same_of_place_withExtension hplace] at hsame
    cases hsame

end CompileRequest

/-! ### Compilations -/

/-- A compilation, as a step of a world. -/
def World.compile (w : World) (r : CompileRequest) : Except CompileError Unit × World :=
  (runCompile World.surroundings r).run w

/-- What a compilation gives, and what it leaves of the files. -/
inductive Compiled (s : FileStore) (r : CompileRequest) :
    Except CompileError Unit → FileStore → Prop
  | refused {e : CompileError} : destination r.input r.output = .error e → Compiled s r (.error e) s
  | unread {target : Destination} {f : FileFault} : destination r.input r.output = .ok target →
    s.readText r.input = .error f → Compiled s r (.error (.file f)) s
  | rejected {target : Destination} {text : String} {e : CompileError} :
    destination r.input r.output = .ok target → s.readText r.input = .ok text →
      lowerText text = .error e → Compiled s r (.error e) s
  | printed {text : String} {l : Listing} : destination r.input r.output = .ok .printed →
    s.readText r.input = .ok text → lowerText text = .ok l → Compiled s r (.ok ()) s
  | unwritten {path text : String} {l : Listing} {f : FileFault} :
    destination r.input r.output = .ok (.file path) → s.readText r.input = .ok text →
      lowerText text = .ok l → s.writeText path (l.render ++ "\n") = .error f →
        Compiled s r (.error (.file f)) s
  | written {path text : String} {l : Listing} {s' : FileStore} :
    destination r.input r.output = .ok (.file path) → s.readText r.input = .ok text →
      lowerText text = .ok l → s.writeText path (l.render ++ "\n") = .ok s' →
        Compiled s r (.ok ()) s'

section World

variable {w w' : World}

theorem run_bind_of_eq {α β : Type} {x : StateM World α} {f : α → StateM World β} {a : α}
    (h : x.run w = (a, w')) : (x >>= f).run w = (f a).run w' := by
  rw [StateT.run_bind, h]
  rfl

theorem run_readText (w : World) (path : String) :
    (World.surroundings.readText path).run w = (w.store.readText path, w) := rfl

theorem run_writeText (w : World) (path text : String) :
    (World.surroundings.writeText path text).run w
      = match w.store.writeText path text with
        | .ok s => (.ok (), { w with store := s })
        | .error f => (.error f, w) := by
  have hget : (get : StateM World World).run w = (w, w) := rfl
  rw [World.surroundings]
  dsimp only
  rw [run_bind_of_eq hget]
  cases w.store.writeText path text <;> rfl

/-- The world in which the listing was shown, if that is asked for. -/
def World.shown (w : World) (showListing : Bool) (l : Listing) : World :=
  if showListing then { w with printed := w.printed ++ l.dump } else w

@[simp] theorem World.store_shown (w : World) (showListing : Bool) (l : Listing) :
    (w.shown showListing l).store = w.store := by
  cases showListing <;> rfl

theorem run_emit (w : World) (showListing : Bool) (target : Destination) (l : Listing) :
    (emit World.surroundings showListing target l).run w
      = (deliver World.surroundings (l.render ++ "\n") target).run (w.shown showListing l) := by
  cases showListing <;> rfl

variable {r : CompileRequest}

/-! A compilation, by the first thing that stands in its way. -/

namespace World

theorem compile_of_refused {e : CompileError} (h : destination r.input r.output = .error e) :
    w.compile r = (.error e, w) := by
  unfold World.compile runCompile
  rw [h]
  rfl

theorem compile_of_unread {target : Destination} {f : FileFault}
    (h : destination r.input r.output = .ok target) (hread : w.store.readText r.input = .error f) :
    w.compile r = (.error (.file f), w) := by
  unfold World.compile runCompile
  simp only [h]
  rw [run_bind_of_eq (run_readText w r.input), hread]
  rfl

theorem compile_of_rejected {target : Destination} {text : String} {e : CompileError}
    (h : destination r.input r.output = .ok target) (hread : w.store.readText r.input = .ok text)
    (hlower : lowerText text = .error e) : w.compile r = (.error e, w) := by
  unfold World.compile runCompile
  simp only [h]
  rw [run_bind_of_eq (run_readText w r.input), hread]
  simp only [hlower]
  rfl

section Delivery

variable {target : Destination} {path text : String} {l : Listing}

theorem compile_of_lowered (h : destination r.input r.output = .ok target)
    (hread : w.store.readText r.input = .ok text) (hlower : lowerText text = .ok l) :
    w.compile r = (deliver World.surroundings (l.render ++ "\n") target).run
      (w.shown r.showListing l) := by
  unfold World.compile runCompile
  simp only [h]
  rw [run_bind_of_eq (run_readText w r.input), hread]
  simp only [hlower]
  exact run_emit w r.showListing target l

theorem compile_of_printed (h : destination r.input r.output = .ok .printed)
    (hread : w.store.readText r.input = .ok text) (hlower : lowerText text = .ok l) :
    w.compile r = (.ok (), { w.shown r.showListing l with
      printed := (w.shown r.showListing l).printed ++ (l.render ++ "\n") }) :=
  compile_of_lowered h hread hlower

theorem compile_of_unwritten {f : FileFault}
    (h : destination r.input r.output = .ok (.file path))
    (hread : w.store.readText r.input = .ok text) (hlower : lowerText text = .ok l)
    (hwrite : w.store.writeText path (l.render ++ "\n") = .error f) :
    w.compile r = (.error (.file f), w.shown r.showListing l) := by
  have hrun := run_writeText (w.shown r.showListing l) path (l.render ++ "\n")
  rw [store_shown, hwrite] at hrun
  rw [compile_of_lowered h hread hlower, deliver, run_bind_of_eq hrun]
  rfl

theorem compile_of_written {s : FileStore} (h : destination r.input r.output = .ok (.file path))
    (hread : w.store.readText r.input = .ok text) (hlower : lowerText text = .ok l)
    (hwrite : w.store.writeText path (l.render ++ "\n") = .ok s) :
    w.compile r = (.ok (), { w.shown r.showListing l with store := s }) := by
  have hrun := run_writeText (w.shown r.showListing l) path (l.render ++ "\n")
  rw [store_shown, hwrite] at hrun
  rw [compile_of_lowered h hread hlower, deliver, run_bind_of_eq hrun]
  rfl

end Delivery

end World

theorem World.compiled (w : World) (r : CompileRequest) :
    Compiled w.store r (w.compile r).1 (w.compile r).2.store := by
  cases hdestination : destination r.input r.output with
  | error e =>
    rw [compile_of_refused hdestination]
    exact .refused hdestination
  | ok target =>
    cases hread : w.store.readText r.input with
    | error f =>
      rw [compile_of_unread hdestination hread]
      exact .unread hdestination hread
    | ok text =>
      cases hlower : lowerText text with
      | error e =>
        rw [compile_of_rejected hdestination hread hlower]
        exact .rejected hdestination hread hlower
      | ok l =>
        cases target with
        | printed =>
          rw [compile_of_printed hdestination hread hlower, store_shown]
          exact .printed hdestination hread hlower
        | file path =>
          cases hwrite : w.store.writeText path (l.render ++ "\n") with
          | error f =>
            rw [compile_of_unwritten hdestination hread hlower hwrite, store_shown]
            exact .unwritten hdestination hread hlower hwrite
          | ok s =>
            rw [compile_of_written hdestination hread hlower hwrite]
            exact .written hdestination hread hlower hwrite

variable {result : Except CompileError Unit} {s s' : FileStore}

/-- A compilation does one thing only. -/
theorem Compiled.unique {result' : Except CompileError Unit} {s'' : FileStore}
    (h : Compiled s r result s') (h' : Compiled s r result' s'') : result = result' ∧ s' = s'' := by
  cases h <;> cases h' <;> simp_all

/-- A compilation that fails leaves all files as they are. -/
theorem Compiled.store_eq {e : CompileError} (h : Compiled s r (.error e) s') : s' = s := by
  cases h <;> rfl

/-- What is written elsewhere leaves the input as it is. -/
theorem Compiled.read_eq (h : Compiled s r result s')
    (hrespells : ¬r.Respells s.workingDirectory) : s'.read r.input = s.read r.input := by
  cases h with
  | refused | unread | rejected | printed | unwritten => rfl
  | written hdestination hread hlower hwrite =>
    obtain ⟨hpath, hsame⟩ := CompileRequest.of_destination_eq_file hdestination
    obtain ⟨file, hfile, rfl⟩ := FileStore.exists_of_writeText hwrite
    obtain ⟨rfl, -, hnode⟩ := FileStore.of_writablePlace hfile
    obtain ⟨content, hcontent⟩ := FileStore.exists_of_readText hread
    have hne : place s.workingDirectory r.input ≠ place s.workingDirectory _ := fun heq =>
      hrespells ⟨_, hpath, hsame, heq.symm⟩
    rw [hcontent, FileStore.read_put_of_ne hnode hne hcontent]

/-- What is written to the input replaces it. -/
theorem Compiled.exists_read_eq (h : Compiled s r (.ok ()) s')
    (hrespells : r.Respells s.workingDirectory) :
    ∃ text l, s.readText r.input = .ok text ∧ lowerText text = .ok l ∧
      s'.read r.input = .ok (l.render ++ "\n").toUTF8 := by
  obtain ⟨path, hpath, hsame, hplace⟩ := hrespells
  have hdestination : destination r.input r.output = .ok (.file path) := by
    rw [CompileRequest.destination_eq, hpath]
    simp [hsame]
  cases h with
  | printed hprinted _ _ => cases hprinted.symm.trans hdestination
  | written hwritten hread hlower hwrite =>
    cases hwritten.symm.trans hdestination
    obtain ⟨file, hfile, rfl⟩ := FileStore.exists_of_writeText hwrite
    obtain ⟨rfl, hroot, hnode⟩ := FileStore.of_writablePlace hfile
    obtain ⟨content, hcontent⟩ := FileStore.exists_of_readText hread
    exact ⟨_, _, hread, hlower, FileStore.read_put_self hnode hroot hplace.symm hcontent _⟩

/-- **What becomes of the input.** A compilation leaves its input as it is, unless the path that is
asked for leads to the input by another spelling. Then a compilation that succeeds replaces the
input by its own assembly text. A compilation that fails leaves all files as they are. A destination
is refused exactly when it leads to the input and its spelling is not another one. -/
theorem compile_keeps_input (w : World) (r : CompileRequest) :
    (¬r.Respells w.store.workingDirectory →
      (w.compile r).2.store.read r.input = w.store.read r.input) ∧
    (r.Respells w.store.workingDirectory → r.output.isSome = true ∧
      ((w.compile r).1 = .ok () →
        ∃ text l, w.store.readText r.input = .ok text ∧ lowerText text = .ok l ∧
          (w.compile r).2.store.read r.input = .ok (l.render ++ "\n").toUTF8)) ∧
    (∀ e, (w.compile r).1 = .error e → (w.compile r).2.store = w.store) ∧
    ∀ path, r.outputPath = some path →
      (destination r.input r.output = .error (.input (.overwrites path)) ↔
        place w.store.workingDirectory path = place w.store.workingDirectory r.input ∧
          ¬r.Respells w.store.workingDirectory) := by
  have hcompiled := w.compiled r
  refine ⟨hcompiled.read_eq, fun hrespells => ⟨hrespells.isSome_output, fun hok => ?_⟩,
    fun e he => ?_, fun path hpath => r.destination_eq_error_iff hpath _⟩
  · rw [hok] at hcompiled
    exact hcompiled.exists_read_eq hrespells
  · rw [he] at hcompiled
    exact hcompiled.store_eq

end World

/-! ### An input that is replaced -/

theorem fromUTF8?_toUTF8 (s : String) : String.fromUTF8? s.toUTF8 = some s := by
  have hvalid : s.toUTF8.IsValidUTF8 := s.isValidUTF8
  rw [String.fromUTF8?, dif_pos hvalid]
  rfl

/-- A program that discards a number. -/
def discardedNumber : Program where
  statements := [.mk .discard (.integer 5) none]

/-- Its listing. -/
def discardedNumberListing : Listing where
  entries := [.label "__main__", .op .pushInteger (some (.integer 5)), .drop, .op .halt none]

/-- A world with the text of the program in a file. -/
def discardedNumberWorld : World where
  store := ⟨[], [(["p.json"], .file discardedNumber.toDocument.compress.toUTF8)]⟩
  printed := ""

/-- A request to write to that file, with a dot in front of its name. -/
def dottedRequest : CompileRequest := ⟨"p.json", some "./p.json", false⟩

theorem lowerText_discardedNumber :
    lowerText discardedNumber.toDocument.compress = .ok discardedNumberListing := by
  have hread := Program.roundTrips.read discardedNumber (by decide)
  rw [lowerText, hread]
  rfl

/-- The path with a dot leads to the file, is not refused, and the file is replaced. -/
theorem dottedRequest_replaces_input :
    place [] "./p.json" = place [] "p.json" ∧
      destination dottedRequest.input dottedRequest.output = .ok (.file "./p.json") ∧
      (discardedNumberWorld.compile dottedRequest).1 = .ok () ∧
      discardedNumberWorld.store.read "p.json"
        = .ok discardedNumber.toDocument.compress.toUTF8 ∧
      (discardedNumberWorld.compile dottedRequest).2.store.read "p.json"
        = .ok (discardedNumberListing.render ++ "\n").toUTF8 ∧
      discardedNumber.toDocument.compress ≠ discardedNumberListing.render ++ "\n" := by
  have hplace : place [] "./p.json" = place [] "p.json" := by decide
  have hdestination : destination dottedRequest.input dottedRequest.output
      = .ok (.file "./p.json") := by decide
  have hcontent : discardedNumberWorld.store.read "p.json"
      = .ok discardedNumber.toDocument.compress.toUTF8 := rfl
  have hread : discardedNumberWorld.store.readText dottedRequest.input
      = .ok discardedNumber.toDocument.compress := by
    refine bind_eq_ok_iff.mpr ⟨_, hcontent, ?_⟩
    rw [fromUTF8?_toUTF8]
    rfl
  obtain ⟨hok, hstore⟩ := (discardedNumberWorld.compiled dottedRequest).unique
    (.written hdestination hread lowerText_discardedNumber rfl)
  refine ⟨hplace, hdestination, hok, hcontent, ?_, by decide +kernel⟩
  rw [hstore]
  rfl

end StackLowering
