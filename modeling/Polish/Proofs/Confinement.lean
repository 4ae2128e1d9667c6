import Polish.Proofs.Path.Join
import Polish.Proofs.Rounds
import Polish.Proofs.Runs.Complete

namespace Polish

theorem Bytes.after?_eq_some_iff {start text rest : Bytes} : after? start text = some rest ↔ text = start ++ rest := by
  unfold after?
  constructor
  · intro h
    split at h
    · rename_i hstart
      obtain ⟨more, rfl⟩ := List.isPrefixOf_iff_prefix.1 hstart
      rw [← Option.some.inj h, List.drop_left]
    · cases h
  · rintro rfl
    rw [if_pos (List.isPrefixOf_iff_prefix.2 (List.prefix_append _ _)), List.drop_left]

namespace Resolver

/-- Whether a path is at or below the directory of the standard library. -/
def inLibrary (r : Resolver) (path : Bytes) : Bool := ((Path.ofBytes r.stdDir).below? (Path.ofBytes path)).isSome

def confines (r : Resolver) (name : Bytes) : Bool := Path.stays (Path.ofBytes r.stdDir) (name ++ r.ext)

theorem stdDir_make_ne_nil (stdDir ext : Bytes) : (make stdDir ext).stdDir ≠ [] := by
  unfold make
  by_cases h : stdDir = []
  · simp only [h, List.isEmpty_nil, if_true]
    decide
  · simp [h]

theorem resolve_std (r : Resolver) (source name : Bytes) :
    r.resolve source (utf8 "std@" ++ name) = .ok (Path.join r.stdDir (name ++ r.ext)) := by
  rw [resolve, Bytes.after?_eq_some_iff.2 rfl]

theorem of_resolve_anonymous {r : Resolver} {target path : Bytes} (h : r.resolve [] target = .ok path) :
    ∃ name, target = utf8 "std@" ++ name ∧ path = Path.join r.stdDir (name ++ r.ext) := by
  unfold resolve at h
  cases hafter : Bytes.after? (utf8 "std@") target with
  | none => simp [hafter] at h
  | some name =>
      simp only [hafter] at h
      exact ⟨name, Bytes.after?_eq_some_iff.1 hafter, (Except.ok.inj h).symm⟩

end Resolver

def Library.read (parts : List Bytes) : Except FileError Bytes := contents (Path.named parts)

theorem Loader.readMounted_of_below {root path : Bytes} {parts : List Bytes}
    (h : (Path.ofBytes root).below? (Path.ofBytes path) = some parts) (mount : Bytes → Except FileError Bytes)
    (others : Option Loader) : readMounted root mount others path = mount (Path.named parts) := by
  have hname := mounted?_eq_some_iff.2 ⟨parts, h, rfl⟩
  simp only [readMounted, hname]

theorem Cursor.Reaches.suffix {c d : Cursor} (h : c.Reaches d) : d.rest <:+ c.rest := ⟨_, h.take_append⟩

def Bytes.quoted? : Bytes → Option Bytes
  | [] => none
  | quote :: rest => if isQuote quote && rest.contains quote then some (rest.takeWhile (· != quote)) else none

namespace Source

def quoted (src : Source) : List Bytes := src.text.tails.filterMap Bytes.quoted?

def libraryNames (src : Source) : List Bytes := src.quoted.filterMap (Bytes.after? (utf8 "std@"))

theorem mem_quoted {src : Source} {c d : Cursor} {value : Bytes} (hc : c.rest <:+ src.text) (hq : c.Quoted value d) :
    value ∈ src.quoted := by
  obtain ⟨quote, rest, hquote, hnew, hrest, -⟩ := hq
  refine List.mem_filterMap.2 ⟨c.rest, (List.mem_tails _ _).2 hc, ?_⟩
  have hvalue : (value ++ quote :: rest).takeWhile (· != quote) = value := by
    rw [List.takeWhile_append_of_pos]
    · simp
    · intro b hb
      rw [bne_iff_ne]
      rintro rfl
      exact hnew hb
  simp [hrest, Bytes.quoted?, hquote, hvalue]

theorem mem_libraryNames {src : Source} {name : Bytes} (h : utf8 "std@" ++ name ∈ src.quoted) :
    name ∈ src.libraryNames :=
  List.mem_filterMap.2 ⟨_, h, Bytes.after?_eq_some_iff.2 rfl⟩

end Source

namespace Build

def guarded (allowed : Bytes → Bool) (run : Importer) : Importer :=
  fun path here => if allowed path then run path here else throw .missing

/-- The targets of the imports of a source, read from a position on. What was imported before decides how far a
declaration reaches, and so which texts are the targets of imports. -/
inductive Imports (resolver : Resolver) (run : Importer) (src : Source) : Cursor → Workspace → Bytes → Prop
  | here {c d e w target} (hend : c.skipBlanks.atEnd = false) (hk : c.token = (utf8 "import", d))
      (hq : d.skipBlanks.Quoted target e) : Imports resolver run src c w target
  | later {c d stop w w' target} (hend : c.skipBlanks.atEnd = false)
      (hchunk : chunk resolver (some run) src c.skipBlanks w = .ok (stop, d) w')
      (h : Imports resolver run src (onward src stop d) (w'.record (remarks src stop)) target) :
      Imports resolver run src c w target

def Uses (resolver : Resolver) (run : Importer) (src : Source) (w : Workspace) (name : Bytes) : Prop :=
  Imports resolver run src src.start w (utf8 "std@" ++ name)

variable {resolver : Resolver} {run : Importer} {src : Source} {allowed : Bytes → Bool} {c : Cursor} {w : Workspace}

theorem Imports.mem_quoted {target : Bytes} (h : Imports resolver run src c w target) (hc : c.rest <:+ src.text) :
    target ∈ src.quoted := by
  induction h with
  | here hend hk hq =>
      have hreach := (Cursor.length_token_lt hk (by decide)).1.trans (Cursor.reaches_skipBlanks _)
      exact Source.mem_quoted (hreach.suffix.trans hc) hq
  | @later c d stop w w' target hend hchunk h ih =>
      have hlen := (c.reaches_skipBlanks.suffix.trans hc).length_le
      exact ih (((chunk_runs hlen hchunk).onward_lt hend).1.suffix.trans hc)

theorem Uses.mem_libraryNames {name : Bytes} (h : Uses resolver run src w name) : name ∈ src.libraryNames :=
  Source.mem_libraryNames (Imports.mem_quoted h List.suffix_rfl)

/-- A guard lets a chunk through as it is or ends it, and it ends only an import of what is not allowed. -/
theorem chunk_guarded (resolver : Resolver) (run : Importer) (src : Source) (allowed : Bytes → Bool) (c : Cursor)
    (w : Workspace) :
    chunk resolver (some (guarded allowed run)) src c.skipBlanks w = chunk resolver (some run) src c.skipBlanks w ∨
    chunk resolver (some (guarded allowed run)) src c.skipBlanks w = .error .missing w ∧
      ∃ d e target path, c.token = (utf8 "import", d) ∧ d.skipBlanks.Quoted target e ∧
        resolver.resolve src.path target = .ok path ∧ allowed path = false := by
  rcases chunk_cases resolver src c.skipBlanks w with ⟨stop, e, w', h⟩ | ⟨d, e, target, path, hk, hq, hp, h⟩
  · exact .inl (by rw [h, h])
  rw [h, h]
  cases hpath : allowed path with
  | true =>
      rw [guarded, if_pos hpath]
      exact .inl rfl
  | false =>
      rw [guarded, hpath]
      exact .inr ⟨rfl, d, e, target, path, c.token_skipBlanks ▸ hk, hq, hp, hpath⟩

theorem chunks_error {importer : Option Importer} {fault : Fault} {w' : Workspace} (hend : c.skipBlanks.atEnd = false)
    (h : chunk resolver importer src c.skipBlanks w = .error fault w') (n : Nat) :
    chunks resolver importer src (n + 1) c w = .error fault w' := by
  simp only [chunks, hend, Bool.false_eq_true, if_false]
  rw [bind_error h]

theorem chunks_guarded (n : Nat) (hallowed : ∀ target path, Imports resolver run src c w target →
      resolver.resolve src.path target = .ok path → allowed path = true) :
    chunks resolver (some (guarded allowed run)) src n c w = chunks resolver (some run) src n c w := by
  induction n generalizing c w with
  | zero => rfl
  | succ n ih =>
      by_cases hend : c.skipBlanks.atEnd = true
      · simp only [chunks, hend, if_true]
      rw [Bool.not_eq_true] at hend
      rcases chunk_guarded resolver run src allowed c w with hsame | ⟨-, d, e, target, path, hk, hq, hp, hpath⟩
      · cases hchunk : chunk resolver (some run) src c.skipBlanks w with
        | error fault w' => rw [chunks_error hend hchunk, chunks_error hend (hsame.trans hchunk)]
        | ok result w' =>
            obtain ⟨stop, d⟩ := result
            rw [chunks_succ hend hchunk, chunks_succ hend (hsame.trans hchunk)]
            exact ih fun target path h => hallowed target path (.later hend hchunk h)
      · rw [hallowed target path (.here hend hk hq) hp] at hpath
        cases hpath

/-- A guard ends a source that imports what it does not let through. -/
theorem Imports.chunks_guarded {target path : Bytes} (h : Imports resolver run src c w target)
    (hp : resolver.resolve src.path target = .ok path) (hpath : allowed path = false)
    (hlen : c.rest.length ≤ src.text.length) {n : Nat} (hn : c.rest.length < n) :
    ∃ w', chunks resolver (some (guarded allowed run)) src n c w = .error .missing w' := by
  obtain ⟨n, rfl⟩ : ∃ less, n = less + 1 := ⟨n - 1, by omega⟩
  induction h generalizing n with
  | @here c d e w target hend hk hq =>
      refine ⟨w, chunks_error hend ?_ n⟩
      rw [chunk_import hk hq hp, guarded, hpath]
      rfl
  | @later c d stop w w' target hend hchunk h ih =>
      rcases chunk_guarded resolver run src allowed c w with hsame | ⟨hstop, -⟩
      · have hskip := c.reaches_skipBlanks.length_le
        obtain ⟨hreach, hlt⟩ := (chunk_runs (Nat.le_trans hskip hlen) hchunk).onward_lt hend
        obtain ⟨n, rfl⟩ : ∃ less, n = less + 1 := ⟨n - 1, by omega⟩
        rw [chunks_succ hend (hsame.trans hchunk)]
        exact ih hp (Nat.le_trans hreach.length_le hlen) n (by omega)
      · exact ⟨w, chunks_error hend hstop n⟩

end Build

namespace Resolver

variable {stdDir ext : Bytes}

theorem inLibrary_iff (name : Bytes) :
    (make stdDir ext).inLibrary (Path.join (make stdDir ext).stdDir (name ++ (make stdDir ext).ext)) = true ↔
      (make stdDir ext).confines name = true :=
  Path.below?_join (stdDir_make_ne_nil stdDir ext) _

/-- Where names of the standard library lead, and what is read there. A name is resolved to a path at or below the
directory of the library exactly if it stays there, whatever file imports it, and a name that does not climb is entered
below it. Where all the imports of a source without a path stay there, an importer is asked for nothing outside of that
directory: a guard against other paths does not show. It ends a source that imports another name. What is asked for in
that directory is read from the file system that is mounted there, whatever other files there are. -/
theorem resolve_confined (stdDir ext : Bytes) :
    let r := make stdDir ext
    (∀ source name, ∃ path, r.resolve source (utf8 "std@" ++ name) = .ok path ∧
      (r.inLibrary path = true ↔ r.confines name = true) ∧
      (Path.climbs (name ++ r.ext) = false →
        (Path.ofBytes r.stdDir).below? (Path.ofBytes path) = some (Path.relative (name ++ r.ext)).parts)) ∧
    (∀ text (run : Importer) (w : Workspace),
      (∀ name, Build.Uses r run ⟨[], text⟩ w name → name ∈ Source.libraryNames ⟨[], text⟩) ∧
      ((∀ name, Build.Uses r run ⟨[], text⟩ w name → r.confines name = true) →
        Build.source r (some (Build.guarded r.inLibrary run)) ⟨[], text⟩ w = Build.source r (some run) ⟨[], text⟩ w) ∧
      ∀ name, Build.Uses r run ⟨[], text⟩ w name → r.confines name = false →
        ∃ w', Build.source r (some (Build.guarded r.inLibrary run)) ⟨[], text⟩ w = .error .missing w') ∧
    ∀ path, r.inLibrary path = true → ∃ parts, (Path.ofBytes r.stdDir).below? (Path.ofBytes path) = some parts ∧
      (∀ mount others, Loader.readMounted r.stdDir mount others path = mount (Path.named parts)) ∧
      ∀ others, (Loader.overlay r.stdDir others).read path = Library.read parts := by
  intro r
  refine ⟨fun source name => ?_, fun text run w => ⟨?_, fun hnames => ?_, fun name huses hname => ?_⟩, fun path h => ?_⟩
  · exact ⟨_, resolve_std r source name, inLibrary_iff name,
      Path.below?_join_of_not_climbs (stdDir_make_ne_nil stdDir ext)⟩
  · exact fun name huses => huses.mem_libraryNames
  · refine Build.chunks_guarded _ fun target path himports hp => ?_
    obtain ⟨name, rfl, rfl⟩ := of_resolve_anonymous hp
    exact (inLibrary_iff name).2 (hnames name himports)
  · have hpath : r.inLibrary (Path.join r.stdDir (name ++ r.ext)) = false := by
      rw [← Bool.not_eq_true, inLibrary_iff, hname]
      exact Bool.false_ne_true
    exact Build.Imports.chunks_guarded huses (resolve_std r [] name) hpath (Nat.le_refl _) (Nat.lt_succ_self _)
  · obtain ⟨parts, hparts⟩ := Option.isSome_iff_exists.1 h
    exact ⟨parts, hparts, Loader.readMounted_of_below hparts, Loader.readMounted_of_below hparts _⟩

/-- A name that steps up only to what it stepped into and one that comes back to where it climbed out of, in a source
that imports both, and a source that imports a name that does not come back. -/
theorem resolve_confined_within :
    let r := make [] []
    let src : Source := ⟨[], utf8 "import 'std@a/../math' import \"std@../@std//io\""⟩
    let out : Source := ⟨[], utf8 "import 'std@../x'"⟩
    (∃ path, r.resolve [] (utf8 "std@" ++ utf8 "a/../math") = .ok path ∧
      (Path.ofBytes r.stdDir).below? (Path.ofBytes path) = some [utf8 "math.functi"]) ∧
    (Path.climbs (utf8 "../@std//io" ++ r.ext) = true ∧ r.confines (utf8 "../@std//io") = true) ∧
    src.libraryNames = [utf8 "a/../math", utf8 "../@std//io"] ∧
    (∀ (run : Importer) (w : Workspace),
      Build.source r (some (Build.guarded r.inLibrary run)) src w = Build.source r (some run) src w) ∧
    (∀ (run : Importer) (w : Workspace),
      ∃ w', Build.source r (some (Build.guarded r.inLibrary run)) out w = .error .missing w') ∧
    ∃ parts, ∀ others, (Loader.overlay r.stdDir others).read (utf8 "@std/math.functi") = Library.read parts := by
  intro r src out
  obtain ⟨hresolve, hsource, hread⟩ := resolve_confined [] []
  have hnames : src.libraryNames = [utf8 "a/../math", utf8 "../@std//io"] := by decide +kernel
  have hparts : (Path.relative (utf8 "a/../math" ++ r.ext)).parts = [utf8 "math.functi"] := by decide +kernel
  have hstays : ∀ name ∈ src.libraryNames, r.confines name = true := by decide +kernel
  refine ⟨?_, by decide +kernel, hnames, fun run w => ?_, fun run w => ?_, ?_⟩
  · obtain ⟨path, hpath, -, hbelow⟩ := hresolve [] (utf8 "a/../math")
    rw [hparts] at hbelow
    exact ⟨path, hpath, hbelow (by decide +kernel)⟩
  · obtain ⟨hused, hguard, -⟩ := hsource src.text run w
    exact hguard fun name huses => hstays name (hused name huses)
  · have huses : Build.Uses r run out w (utf8 "../x") := by
      have hword : out.start.token.1 = utf8 "import" := by decide +kernel
      have hrest : out.start.token.2.skipBlanks.rest = utf8 "'std@../x'" := by decide +kernel
      exact .here (by decide +kernel) (Prod.ext hword rfl) ⟨ascii '\'', [], by decide, by decide +kernel, hrest, rfl⟩
    exact (hsource out.text run w).2.2 (utf8 "../x") huses (by decide +kernel)
  · obtain ⟨parts, -, -, hlibrary⟩ := hread (utf8 "@std/math.functi") (by decide +kernel)
    exact ⟨parts, hlibrary⟩

/-- A name that climbs leads out of the standard library: a source without a path asks for a file outside of it, and
the file is read from the other files. -/
theorem resolve_escapes :
    let r := make [] []
    r.resolve [] (utf8 "std@../x") = .ok (utf8 "x.functi") ∧ r.inLibrary (utf8 "x.functi") = false ∧
    (Loader.overlay r.stdDir (some (Loader.ofFiles [(utf8 "x.functi", utf8 "function f => 1")]))).read
      (utf8 "x.functi") = .ok (utf8 "function f => 1") ∧
    Build.requested r ⟨[], utf8 "import 'std@../x'"⟩ {} = [utf8 "x.functi"] := by
  intro r
  exact ⟨by rfl, by decide +kernel, by rfl, by decide +kernel⟩

end Resolver

end Polish
