import StackLowering.Proofs.InputSafety

/-!
# What a compilation delivers

A compilation does all of its work or nothing. Four things can stand in its way, and it meets them
in one order: the destination is refused, the input cannot be read as text, the text describes no
program, the program cannot be lowered. The first of them is the result, and nothing was written or
printed when it is met. Where nothing stands in the way the destination gets the assembly text of
the program and an end of line.

A destination that is a file may exist or not. Either way only its place changes.

## Main definitions

* `CompileRequest.Obstacle` — the first thing that stands in the way of a request
* `CompileRequest.Yields` — nothing stands in the way, and this is the assembly text

## Main results

* `FileStore.read_writeText`, `FileStore.node?_writeText` — what is written is read, and the rest
  stays as it is
* `compile_all_or_nothing` — what a compilation leaves of a world
-/

namespace StackLowering

open Json (map_eq_ok_iff)
open StackLowering.Path (place)

/-! ### Files that are written -/

namespace FileStore

variable {s s' : FileStore} {path text : String}

/-- The file that was written holds the text, whether or not there was a file before. -/
theorem read_writeText (h : s.writeText path text = .ok s') : s'.read path = .ok text.toUTF8 := by
  obtain ⟨file, hfile, rfl⟩ := exists_of_writeText h
  obtain ⟨-, hroot, hnode⟩ := of_writablePlace hfile
  obtain ⟨t, ht, -, hslash, -, rfl⟩ := writablePlace_eq_ok_iff.mp hfile
  exact read_eq_ok_iff.mpr ⟨t, resolve_put hnode ht _, node?_put_self hroot _, hslash⟩

/-- At every other place stands what stood there before. -/
theorem node?_writeText (h : s.writeText path text = .ok s') {q : List String}
    (hq : q ≠ place s.workingDirectory path) : s'.node? q = s.node? q := by
  obtain ⟨file, hfile, rfl⟩ := exists_of_writeText h
  obtain ⟨rfl, -, -⟩ := of_writablePlace hfile
  exact node?_put_of_ne hq _

end FileStore

/-! ### What stands in the way -/

namespace CompileRequest

/-- The first thing that stands in the way of a request, in the order in which a compilation meets
them. -/
inductive Obstacle (s : FileStore) (r : CompileRequest) : CompileError → Prop
  /-- The destination is refused. -/
  | refused {path : String} :
    destination r.input r.output = .error (.input (.overwrites path)) →
      Obstacle s r (.input (.overwrites path))
  /-- The input cannot be read as text. -/
  | unread {target : Destination} {f : FileFault} : destination r.input r.output = .ok target →
    s.readText r.input = .error f → Obstacle s r (.file f)
  /-- The text describes no program. -/
  | unreadable {target : Destination} {text : String} {e : Json.ReadError} :
    destination r.input r.output = .ok target → s.readText r.input = .ok text →
      Program.ofText text = .error e → Obstacle s r (.input (.unreadable e))
  /-- The program cannot be lowered. -/
  | unlowered {target : Destination} {text : String} {p : Program} {f : LocatedFault} :
    destination r.input r.output = .ok target → s.readText r.input = .ok text →
      Program.ofText text = .ok p → p.compile = .error f → Obstacle s r (.lowering f)

/-- Nothing stands in the way of a request. It leads to this destination, and the program in its
input has this assembly text. -/
structure Yields (s : FileStore) (r : CompileRequest) (target : Destination) (assembly : String) :
    Prop where
  destination : destination r.input r.output = .ok target
  program : ∃ text p, s.readText r.input = .ok text ∧ Program.ofText text = .ok p ∧
    p.compile = .ok assembly

variable {s : FileStore} {r : CompileRequest}

/-- A destination is refused for one reason only. -/
theorem exists_path_of_destination_eq_error {e : CompileError}
    (h : StackLowering.destination r.input r.output = .error e) :
    ∃ path, e = .input (.overwrites path) := by
  rw [destination_eq] at h
  split at h
  · cases h
  · rename_i path _
    split_ifs at h
    cases h
    exact ⟨path, rfl⟩

/-- Something stands in the way, or nothing does. -/
theorem exists_obstacle_or_yields (s : FileStore) (r : CompileRequest) :
    (∃ e, r.Obstacle s e) ∨ ∃ target assembly, r.Yields s target assembly := by
  cases hdestination : StackLowering.destination r.input r.output with
  | error e =>
    obtain ⟨path, rfl⟩ := exists_path_of_destination_eq_error hdestination
    exact .inl ⟨_, .refused hdestination⟩
  | ok target =>
    cases hread : s.readText r.input with
    | error f => exact .inl ⟨_, .unread hdestination hread⟩
    | ok text =>
      cases hparse : Program.ofText text with
      | error e => exact .inl ⟨_, .unreadable hdestination hread hparse⟩
      | ok p =>
        cases hcompile : p.compile with
        | error f => exact .inl ⟨_, .unlowered hdestination hread hparse hcompile⟩
        | ok assembly => exact .inr ⟨target, assembly, hdestination, text, p, hread, hparse, hcompile⟩

end CompileRequest

/-! ### All or nothing -/

section Lower

variable {text : String} {p : Program}

theorem lowerText_of_unreadable {e : Json.ReadError} (h : Program.ofText text = .error e) :
    lowerText text = .error (.input (.unreadable e)) := by
  rw [lowerText, h]
  rfl

theorem lowerText_of_unlowered {f : LocatedFault} (h : Program.ofText text = .ok p)
    (hcompile : p.compile = .error f) : lowerText text = .error (.lowering f) := by
  rw [lowerText, h]
  unfold Program.compile at hcompile
  cases hlower : p.lower with
  | error f' =>
    rw [hlower] at hcompile
    cases hcompile
    simp [hlower, Except.mapError, bind, Except.bind]
  | ok l =>
    rw [hlower] at hcompile
    cases hcompile

theorem exists_lowerText_of_compile {assembly : String} (h : Program.ofText text = .ok p)
    (hcompile : p.compile = .ok assembly) : ∃ l, lowerText text = .ok l ∧ l.render = assembly := by
  obtain ⟨l, hlower, hrender⟩ := map_eq_ok_iff.mp hcompile
  refine ⟨l, ?_, hrender⟩
  rw [lowerText, h]
  simp [hlower, Except.mapError, bind, Except.bind]

end Lower

section World

variable {w : World} {r : CompileRequest} {assembly : String}

/-- What stands in the way ends a compilation before it has done anything. -/
theorem World.compile_of_obstacle {e : CompileError} (h : r.Obstacle w.store e) :
    w.compile r = (.error e, w) := by
  cases h with
  | refused h => exact compile_of_refused h
  | unread h hread => exact compile_of_unread h hread
  | unreadable h hread hparse =>
    exact compile_of_rejected h hread (lowerText_of_unreadable hparse)
  | unlowered h hread hparse hcompile =>
    exact compile_of_rejected h hread (lowerText_of_unlowered hparse hcompile)

theorem World.exists_printed_shown (w : World) (showListing : Bool) (l : Listing) :
    ∃ shown, (w.shown showListing l).printed = w.printed ++ shown ∧
      (showListing = false → shown = "") := by
  cases showListing with
  | false => exact ⟨"", by simp [World.shown], fun _ => rfl⟩
  | true => exact ⟨l.dump, rfl, by simp⟩

theorem World.compile_of_yields_printed (h : r.Yields w.store .printed assembly) :
    (w.compile r).1 = .ok () ∧ (w.compile r).2.store = w.store ∧
      ∃ shown, (w.compile r).2.printed = w.printed ++ shown ++ (assembly ++ "\n") ∧
        (r.showListing = false → shown = "") := by
  obtain ⟨hdestination, text, p, hread, hparse, hcompile⟩ := h
  obtain ⟨l, hlower, rfl⟩ := exists_lowerText_of_compile hparse hcompile
  obtain ⟨shown, hshown, hnone⟩ := w.exists_printed_shown r.showListing l
  rw [compile_of_printed hdestination hread hlower]
  exact ⟨rfl, w.store_shown _ _, shown, by rw [hshown], hnone⟩

theorem World.compile_of_yields_file {path : String} {s : FileStore}
    (h : r.Yields w.store (.file path) assembly)
    (hwrite : w.store.writeText path (assembly ++ "\n") = .ok s) :
    (w.compile r).1 = .ok () ∧ (w.compile r).2.store = s ∧
      ∃ shown, (w.compile r).2.printed = w.printed ++ shown ∧
        (r.showListing = false → shown = "") := by
  obtain ⟨hdestination, text, p, hread, hparse, hcompile⟩ := h
  obtain ⟨l, hlower, rfl⟩ := exists_lowerText_of_compile hparse hcompile
  rw [compile_of_written hdestination hread hlower hwrite]
  exact ⟨rfl, rfl, w.exists_printed_shown r.showListing l⟩

/-- What a compilation does to the files does not depend on whether the listing is shown. -/
theorem Compiled.of_showListing {s s' : FileStore} {result : Except CompileError Unit}
    {showListing : Bool} (h : Compiled s { r with showListing } result s') :
    Compiled s r result s' := by
  cases h with
  | refused h => exact .refused h
  | unread h hread => exact .unread h hread
  | rejected h hread hlower => exact .rejected h hread hlower
  | printed h hread hlower => exact .printed h hread hlower
  | unwritten h hread hlower hwrite => exact .unwritten h hread hlower hwrite
  | written h hread hlower hwrite => exact .written h hread hlower hwrite

/-- **All or nothing.** Either something stands in the way of a compilation or nothing does. The
first thing that does is the result, and the world stays as it is. Where nothing does, printing adds
the assembly text and an end of line to what was printed, and no file changes; writing, if the file
can be written, leaves just that in the file, changes no other place, and prints nothing but the
listing. Whether the listing is shown makes no difference for the result and for the files. -/
theorem compile_all_or_nothing (w : World) (r : CompileRequest) :
    ((∃ e, r.Obstacle w.store e) ∨ ∃ target assembly, r.Yields w.store target assembly) ∧
    (∀ e, r.Obstacle w.store e → w.compile r = (.error e, w)) ∧
    (∀ assembly, r.Yields w.store .printed assembly →
      (w.compile r).1 = .ok () ∧ (w.compile r).2.store = w.store ∧
        ∃ shown, (w.compile r).2.printed = w.printed ++ shown ++ (assembly ++ "\n") ∧
          (r.showListing = false → shown = "")) ∧
    (∀ path assembly, r.Yields w.store (.file path) assembly →
      ∀ s, w.store.writeText path (assembly ++ "\n") = .ok s →
        (w.compile r).1 = .ok () ∧
          (w.compile r).2.store.read path = .ok (assembly ++ "\n").toUTF8 ∧
          (∀ q, q ≠ place w.store.workingDirectory path →
            (w.compile r).2.store.node? q = w.store.node? q) ∧
          ∃ shown, (w.compile r).2.printed = w.printed ++ shown ∧
            (r.showListing = false → shown = "")) ∧
    ∀ showListing, (w.compile { r with showListing }).1 = (w.compile r).1 ∧
      (w.compile { r with showListing }).2.store = (w.compile r).2.store := by
  refine ⟨r.exists_obstacle_or_yields w.store, fun e => World.compile_of_obstacle,
    fun assembly => World.compile_of_yields_printed, fun path assembly h s hwrite => ?_,
    fun showListing => ?_⟩
  · obtain ⟨hok, hstore, hprinted⟩ := World.compile_of_yields_file h hwrite
    rw [hstore]
    exact ⟨hok, FileStore.read_writeText hwrite, fun q => FileStore.node?_writeText hwrite, hprinted⟩
  · exact (w.compiled { r with showListing }).of_showListing.unique (w.compiled r)

end World

/-- A world with a program in a file and, beside it, the file that its assembly text goes to. -/
def staleOutputWorld : World where
  store := ⟨[], [(["p.json"], .file discardedNumber.toDocument.compress.toUTF8),
    (["p.cir"], .file "stale".toUTF8)]⟩
  printed := ""

/-- A request to compile that file and to show its listing. -/
def listedRequest : CompileRequest := ⟨"p.json", none, true⟩

theorem listedRequest_yields :
    listedRequest.Yields staleOutputWorld.store (.file "p.cir") discardedNumberListing.render := by
  have hread : staleOutputWorld.store.readText "p.json"
      = .ok discardedNumber.toDocument.compress := by
    refine Json.bind_eq_ok_iff.mpr ⟨discardedNumber.toDocument.compress.toUTF8, rfl, ?_⟩
    rw [fromUTF8?_toUTF8]
    rfl
  exact ⟨by decide, _, discardedNumber, hread,
    Program.roundTrips.read discardedNumber (by decide), rfl⟩

/-- The text that stood there is replaced, and the program stays as it is. -/
theorem listedRequest_replaces_output :
    (staleOutputWorld.compile listedRequest).1 = .ok () ∧
      (staleOutputWorld.compile listedRequest).2.store.read "p.cir"
        = .ok (discardedNumberListing.render ++ "\n").toUTF8 ∧
      (∀ q, q ≠ place [] "p.cir" →
        (staleOutputWorld.compile listedRequest).2.store.node? q
          = staleOutputWorld.store.node? q) ∧
      ∃ shown, (staleOutputWorld.compile listedRequest).2.printed = "" ++ shown ∧
        (listedRequest.showListing = false → shown = "") :=
  (compile_all_or_nothing staleOutputWorld listedRequest).2.2.2.1 _ _ listedRequest_yields _ rfl

end StackLowering
