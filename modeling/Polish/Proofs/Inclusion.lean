import Polish.Proofs.Grammar.Detach
import Polish.Proofs.Rounds

namespace Polish

namespace Phrases

section Texts

variable {text rest mark blanks : Bytes} {src : Source} {r r' goal : Registry}

theorem Opens.append_blanks (h : Opens text mark rest) (hb : ∀ b ∈ blanks, isBlank b = true) :
    Opens (blanks ++ text) mark rest := by
  obtain ⟨more, hmore, rfl⟩ := h
  exact ⟨blanks ++ more, List.forall_mem_append.2 ⟨hb, hmore⟩, (List.append_assoc _ _ _).symm⟩

theorem IsProgram.append_blanks {fns : List Function} (h : IsProgram src r text fns)
    (hb : ∀ b ∈ blanks, isBlank b = true) : IsProgram src r (blanks ++ text) fns := by
  cases h with
  | nil h => exact .nil (List.forall_mem_append.2 ⟨hb, h⟩)
  | cons h hs =>
      obtain ⟨hk, hn, ha, hl, hp, harrow, hnew, hx⟩ := h
      exact .cons (.mk ⟨hk.opens.append_blanks hb, hk.isWord, hk.stops⟩ hn ha hl hp harrow hnew hx) hs

def Leads (text : Bytes) (r goal : Registry) : Prop :=
  ∀ (src : Source) (r' : Registry), r'.Same r →
    ∃ fns, IsProgram src r' text fns ∧ (fns.foldl Registry.declare r').Same goal

theorem Leads.append_blanks (h : Leads text r goal) (hb : ∀ b ∈ blanks, isBlank b = true) :
    Leads (blanks ++ text) r goal := by
  intro src r' hr
  obtain ⟨fns, hfns, hsame⟩ := h src r' hr
  exact ⟨fns, hfns.append_blanks hb, hsame⟩

theorem Leads.of_same (h : Leads text r' goal) (hr : r.Same r') : Leads text r goal :=
  fun src r₁ hr₁ => h src r₁ (hr₁.trans hr)

/-- A piece that stands for what is left of a source, between the registries before and after it. Any tail may follow
at which a token ends, with `closing` in between. -/
structure Replaces (closing piece rest : Bytes) (r r' : Registry) : Prop where
  stops : ∀ tail, Stops (closing ++ tail) → Stops rest → Stops (piece ++ tail)
  leads : ∀ tail goal, Stops (closing ++ tail) → Leads tail r' goal → Leads (piece ++ tail) r goal

variable {closing piece : Bytes}

theorem stops_nil : Stops [] := by
  intro b hb
  cases hb

theorem stops_gap (hne : blanks ≠ []) (hb : ∀ b ∈ blanks, isBlank b = true) (tail : Bytes) :
    Stops (blanks ++ tail) := by
  obtain ⟨b, bs, rfl⟩ := List.exists_cons_of_ne_nil hne
  exact stops_cons (by simp [inToken, hb b List.mem_cons_self]) _

theorem replaces_end (r : Registry) (hrest : ∀ b ∈ rest, isBlank b = true)
    (hclosing : ∀ b ∈ closing, isBlank b = true) : Replaces closing (rest ++ closing) rest r r where
  stops tail htail hstops := by
    rw [List.append_assoc]
    exact stops_append (fun _ => htail) rest (by rwa [List.append_nil])
  leads tail goal _ h := h.append_blanks (List.forall_mem_append.2 ⟨hrest, hclosing⟩)

theorem Replaces.declares {first : Bytes} {fn : Function} (h : Replaces closing piece rest (r.declare fn) r')
    (hd : Declares src r (first ++ rest) fn rest) : Replaces closing (first ++ piece) (first ++ rest) r r' := by
  obtain ⟨_, hfirst, hreread⟩ := hd.detaches
  obtain rfl := List.append_cancel_right hfirst
  refine ⟨fun tail htail hstops => ?_, fun tail goal htail hgoal src' r₁ hr => ?_⟩
  · rw [List.append_assoc]
    exact stops_append (h.stops tail htail) first hstops
  · obtain ⟨fn', hfn', hsame⟩ := hreread (piece ++ tail) (h.stops tail htail) src' r₁ hr
    obtain ⟨fns, hfns, hgoal'⟩ := h.leads tail goal htail hgoal src' (r₁.declare fn') (hr.declare hsame)
    rw [List.append_assoc]
    exact ⟨fn' :: fns, .cons hfn' hfns, hgoal'⟩

/-- The blanks before a word are kept: they end the token before them. -/
theorem replaces_word {word after : Bytes} (ht : Token text word after)
    (h : ∀ tail goal, Stops (closing ++ tail) → Leads tail r' goal → Leads (piece ++ tail) r goal) :
    Replaces closing (text.takeWhile isBlank ++ piece) text r r' := by
  obtain ⟨⟨blanks, hblanks, rfl⟩, hword, -⟩ := ht
  obtain ⟨b, word, rfl⟩ := List.exists_cons_of_ne_nil hword.ne_nil
  have hb := hword.bytes b List.mem_cons_self
  have htake : (blanks ++ (b :: word ++ after)).takeWhile isBlank = blanks := by
    have hblank : isBlank b = false := by
      simp only [inToken, Bool.and_eq_true, Bool.not_eq_true'] at hb
      exact hb.1
    rw [List.takeWhile_append_of_pos hblanks]
    simp [hblank]
  rw [htake]
  refine ⟨fun tail _ hstops => ?_, fun tail goal htail hgoal => ?_⟩
  · cases blanks with
    | nil => exact absurd hb (Bool.eq_false_iff.1 (hstops b rfl))
    | cons blank blanks => exact hstops
  · rw [List.append_assoc]
    exact (h tail goal htail hgoal).append_blanks hblanks

end Texts

end Phrases

namespace Build

variable {src : Source} {c d e g : Cursor} {w : Workspace}

theorem round_function (resolver : Resolver) {name : Bytes} {location : Location} {params : List Param} {body : Expr}
    (hk : c.token = (utf8 "function", d)) (hs : Grammar.Signature src d name location params e)
    (hnew : w.registry.lookup name = none)
    (hb : Grammar.Exprs src (w.registry.declare (.awaiting name params location))
      (Parser.Bindings.bind [] params (src.locate e.off)) e [body] [] g)
    (hc : Phrases.Within src c) (hw : w.requests = []) :
    c.Reaches g ∧ round resolver src c w =
      .ok (g, none) (w.withRegistry (w.registry.declare (.custom name params location body))) := by
  have hkeyword := (Cursor.length_token_lt hk (by decide)).1
  have hlen : d.rest.length ≤ src.text.length := by
    have hd := hc.reaches hkeyword
    unfold Phrases.Within at hd
    omega
  have hround := round_of_chunk (fun importer => (chunk_function resolver importer w hk).trans
    (declaration_run hs hnew hb hlen)) hw
  rw [remarks, Workspace.record_nil, onward] at hround
  exact ⟨(hkeyword.trans hs.reaches).trans hb.reaches.1, hround⟩

theorem round_import {resolver : Resolver} {target path : Bytes} (hk : c.token = (utf8 "import", d))
    (hq : d.skipBlanks.Quoted target e) (hp : resolver.resolve src.path target = .ok path) (hw : w.requests = []) :
    c.Reaches e ∧ round resolver src c w = .ok (e, some (path, src.locate d.skipBlanks.off)) w := by
  refine ⟨((Cursor.length_token_lt hk (by decide)).1.trans d.reaches_skipBlanks).trans hq.reaches.1, ?_⟩
  exact round_of_ask (fun run => chunk_import hk hq hp run w) hw

end Build

theorem CleanRuns.visits {resolver : Resolver} {read : Option (Bytes → Except FileError Bytes)} {depth : Nat}
    {src : Source} {c : Cursor} {w w' : Workspace} (h : CleanRuns resolver read depth src c w w') :
    ∃ visited, w.Visits visited w' := by
  induction h with
  | done => exact ⟨[], Workspace.visits_nil _⟩
  | declared hk hs hnew hb rest ih =>
      obtain ⟨visited, hvisits⟩ := ih
      exact ⟨visited, hvisits.requests, hvisits.reads, hvisits.imported, hvisits.fresh, hvisits.nodup⟩
  | known hr hk hq hp hi rest ih => exact ih
  | included hr hk hq hp hi hl file rest ih1 ih2 =>
      obtain ⟨visited, hfile⟩ := ih1
      obtain ⟨visited', hrest⟩ := ih2
      exact ⟨_, ((Workspace.visits_visit hi).trans hfile).trans hrest⟩
  | unread hr hk hq hp hi hl rest ih =>
      obtain ⟨visited, hrest⟩ := ih
      exact ⟨_, (Workspace.visits_visit hi).trans hrest⟩

namespace Reader

def closing (gap : Bytes) (frames : List Frame) : Bytes := if frames.isEmpty then [] else gap

theorem isBlank_of_mem_closing {gap : Bytes} (hblank : ∀ b ∈ gap, isBlank b = true) (frames : List Frame) :
    ∀ b ∈ closing gap frames, isBlank b = true := by
  unfold closing
  split
  · exact nofun
  · exact hblank

/-- The text that one step goes through. In place of an import stands `instead`, or nothing where the text of its file
follows in the next steps. -/
def piece (gap instead : Bytes) (resolver : Resolver) (r : Reader) : Bytes := match r.frames with
  | [] => []
  | ⟨src, c⟩ :: frames =>
    if c.skipBlanks.atEnd then c.rest ++ closing gap frames
    else match Build.round resolver src c r.workspace with
      | .error _ _ => []
      | .ok (d, none) _ => c.rest.take (d.off - c.off)
      | .ok (_, some (path, _)) _ =>
        c.rest.takeWhile isBlank ++ (if r.workspace.registry.isImported path then instead else [])

def unfolding (gap instead : Bytes) (l : Loader) (resolver : Resolver) : Nat → Reader → Bytes
  | 0, _ => []
  | n + 1, r => r.piece gap instead resolver ++ unfolding gap instead l resolver n (r.step l resolver)

section Unfolding

variable (gap instead : Bytes) (l : Loader) (resolver : Resolver)

theorem unfolding_add (k m : Nat) (r : Reader) : unfolding gap instead l resolver (m + k) r =
    unfolding gap instead l resolver k r ++ unfolding gap instead l resolver m ((step l resolver)^[k] r) := by
  induction k generalizing r with
  | zero => rfl
  | succ k ih => rw [← Nat.add_assoc, unfolding, unfolding, ih, List.append_assoc, Function.iterate_succ_apply]

theorem unfolding_of_empty {r : Reader} (hr : r.frames = []) (m : Nat) : unfolding gap instead l resolver m r = [] := by
  have hstay : r.step l resolver = r := by simp only [step, hr]
  have hpiece : r.piece gap instead resolver = [] := by simp only [piece, hr]
  induction m with
  | zero => rfl
  | succ m ih => rw [unfolding, hstay, hpiece, ih, List.append_nil]

theorem unfolding_eq {r : Reader} {n m : Nat} (hn : ((step l resolver)^[n] r).frames = [])
    (hm : ((step l resolver)^[m] r).frames = []) :
    unfolding gap instead l resolver n r = unfolding gap instead l resolver m r := by
  have hle {n m : Nat} (hn : ((step l resolver)^[n] r).frames = []) (h : n ≤ m) :
      unfolding gap instead l resolver m r = unfolding gap instead l resolver n r := by
    obtain ⟨k, rfl⟩ := Nat.exists_eq_add_of_le' h
    rw [unfolding_add, unfolding_of_empty gap instead l resolver hn, List.append_nil]
  rcases Nat.le_total n m with h | h
  · exact (hle hn h).symm
  · exact hle hm h

variable {src : Source} {c d : Cursor} {w w' : Workspace} (frames : List Frame) (opened : List Bytes)

theorem step_leave (h : c.skipBlanks.atEnd = true) :
    step l resolver ⟨⟨src, c⟩ :: frames, w, opened⟩ = ⟨frames, w, opened⟩ ∧
      piece gap instead resolver ⟨⟨src, c⟩ :: frames, w, opened⟩ = c.rest ++ closing gap frames := by
  simp only [step, piece, h, if_true, and_self]

theorem step_read (hend : c.skipBlanks.atEnd = false) (h : Build.round resolver src c w = .ok (d, none) w') :
    step l resolver ⟨⟨src, c⟩ :: frames, w, opened⟩ = ⟨⟨src, d⟩ :: frames, w', opened⟩ ∧
      piece gap instead resolver ⟨⟨src, c⟩ :: frames, w, opened⟩ = c.rest.take (d.off - c.off) := by
  have hturn : l.turn resolver src c w = .ok (d, none) w' := Loader.turn_of_round h
  simp only [step, piece, hend, Bool.false_eq_true, if_false, h, hturn, and_self]

variable {path : Bytes} {here : Location}

theorem step_known (hend : c.skipBlanks.atEnd = false) (h : Build.round resolver src c w = .ok (d, some (path, here)) w)
    (hi : w.registry.isImported path = true) :
    step l resolver ⟨⟨src, c⟩ :: frames, w, opened⟩ = ⟨⟨src, d⟩ :: frames, w, opened⟩ ∧
      piece gap instead resolver ⟨⟨src, c⟩ :: frames, w, opened⟩ = c.rest.takeWhile isBlank ++ instead := by
  have hturn : l.turn resolver src c w = .ok (d, none) w := Loader.turn_of_fetch h (Loader.fetch_known hi)
  simp only [step, piece, hend, Bool.false_eq_true, if_false, h, hturn, hi, if_true, and_self]

theorem step_open {text : Bytes} (hend : c.skipBlanks.atEnd = false)
    (h : Build.round resolver src c w = .ok (d, some (path, here)) w) (hi : w.registry.isImported path = false)
    (hl : l.read path = .ok text) :
    step l resolver ⟨⟨src, c⟩ :: frames, w, opened⟩ =
        ⟨⟨⟨path, text⟩, Source.start ⟨path, text⟩⟩ :: ⟨src, d⟩ :: frames, w.visit path, opened ++ [path]⟩ ∧
      piece gap instead resolver ⟨⟨src, c⟩ :: frames, w, opened⟩ = c.rest.takeWhile isBlank := by
  have hturn := Loader.turn_of_fetch h (Loader.fetch_open hi hl)
  simp only [step, piece, hend, Bool.false_eq_true, if_false, h, hturn, hi, List.append_nil, and_self]

end Unfolding

open Phrases in
/-- Reading on from a place in a source, and what is put in place of the rest of it. -/
theorem replaces_of_cleanRuns {l : Loader} {resolver : Resolver} {gap instead : Bytes} {paths : List Bytes}
    (hpaths : ∀ path text, Path.Canonical path → l.read path = .ok text → path ∈ paths) (hgap : gap ≠ [])
    (hblank : ∀ b ∈ gap, isBlank b = true) (hinstead : ∀ b ∈ instead, isBlank b = true) {depth : Nat} {src : Source}
    {c : Cursor} {w w' : Workspace} (h : CleanRuns resolver (some l.read) depth src c w w') (hc : Within src c)
    (hw : w.requests = []) (hdepth : w.unmarked paths ≤ depth) (frames : List Frame) (opened : List Bytes) :
    ∃ k opened', (step l resolver)^[k] ⟨⟨src, c⟩ :: frames, w, opened⟩ = ⟨frames, w', opened'⟩ ∧
      Replaces (closing gap frames) (unfolding gap instead l resolver k ⟨⟨src, c⟩ :: frames, w, opened⟩) c.rest
        w.registry w'.registry := by
  generalize hread : some l.read = read at h
  induction h generalizing frames opened with
  | @done _ _ c _ hend =>
      obtain ⟨hstep, hpiece⟩ := step_leave gap instead l resolver frames opened hend
      have hrest : c.rest.dropWhile isBlank = [] := by
        rw [← Cursor.rest_skipBlanks]
        exact List.isEmpty_iff.1 hend
      refine ⟨1, opened, hstep, ?_⟩
      rw [unfolding, unfolding, List.append_nil, hpiece]
      exact replaces_end _ (List.dropWhile_eq_nil_iff.1 hrest) (isBlank_of_mem_closing hblank frames)
  | declared hk hs hnew hb rest ih =>
      obtain ⟨hreach, hround⟩ := Build.round_function resolver hk hs hnew hb hc hw
      obtain ⟨hstep, hpiece⟩ := step_read gap instead l resolver frames opened (Cursor.atEnd_of_token hk (by decide))
        hround
      obtain ⟨k, opened', hsteps, hreplaces⟩ := ih (hc.reaches hreach) hw hdepth frames opened
      refine ⟨k + 1, opened', by rw [Function.iterate_succ_apply, hstep, hsteps], ?_⟩
      have hdeclares := declares_of_signature hk hs hnew hb hc
      rw [← hreach.take_append] at hdeclares
      have hwhole := hreplaces.declares hdeclares
      rwa [hreach.take_append, ← hpiece, ← hstep] at hwhole
  | known hr hk hq hp hi rest ih =>
      obtain ⟨hreach, hround⟩ := Build.round_import hk hq hp hw
      obtain ⟨hstep, hpiece⟩ := step_known gap instead l resolver frames opened (Cursor.atEnd_of_token hk (by decide))
        hround hi
      obtain ⟨k, opened', hsteps, hreplaces⟩ := ih (hc.reaches hreach) hw hdepth frames opened
      refine ⟨k + 1, opened', by rw [Function.iterate_succ_apply, hstep, hsteps], ?_⟩
      rw [unfolding, hpiece, hstep, List.append_assoc]
      refine replaces_word (token_of_token hk (by decide)) fun tail goal htail hgoal => ?_
      rw [List.append_assoc]
      exact (hreplaces.leads tail goal htail hgoal).append_blanks hinstead
  | @included _ src _ _ e _ path _ text _ _ _ hr hk hq hp hi hl file rest ih1 ih2 =>
      obtain rfl := Option.some.inj (hread.trans hr)
      obtain ⟨hreach, hround⟩ := Build.round_import hk hq hp hw
      obtain ⟨hstep, hpiece⟩ := step_open gap instead l resolver frames opened (Cursor.atEnd_of_token hk (by decide))
        hround hi hl
      have hless := Workspace.unmarked_visit_lt (hpaths path text (Resolver.canonical hp) hl) hi
      obtain ⟨visited, hvisits⟩ := file.visits
      have hmarked := (Workspace.visits_visit hi).trans hvisits
      obtain ⟨k, opened₁, hsteps, hfile⟩ := ih1 (within_start _) hw (by omega) (⟨src, e⟩ :: frames) (opened ++ [path])
      obtain ⟨m, opened', hsteps', hreplaces⟩ := ih2 (hc.reaches hreach) (hmarked.requests.trans hw)
        (Nat.le_trans (hmarked.unmarked_le paths) hdepth) frames opened₁
      refine ⟨m + k + 1, opened', ?_, ?_⟩
      · rw [Function.iterate_succ_apply, Function.iterate_add_apply, hstep, hsteps, hsteps']
      · rw [unfolding, hpiece, hstep, unfolding_add, hsteps]
        refine replaces_word (token_of_token hk (by decide)) fun tail goal htail hgoal => ?_
        rw [List.append_assoc]
        -- the gap after the file ends its last token, whatever the source that imports it goes on with
        exact (hfile.leads _ goal (stops_gap hgap hblank _) (hreplaces.leads tail goal htail hgoal)).of_same
          (Registry.same_markImported _ _)
  | @unread _ _ _ _ _ path _ text _ _ hr hk hq hp hi hl rest ih =>
      -- a file that is left out would be one more path without a mark
      obtain rfl := Option.some.inj (hread.trans hr)
      have hless := Workspace.unmarked_visit_lt (hpaths path text (Resolver.canonical hp) hl) hi
      omega

end Reader

namespace Session

open Phrases in
/-- Parsing a main source without a problem is reading one text in which the imports are replaced: each by the text of
the file and a gap of blanks the first time that the path is met, and by blanks every later time. This text is read from
nothing, without an importer and without a problem, and leaves the same names and functions up to locations. -/
theorem parse_includes {l : Loader} (hl : l.Bounded) {resolver : Resolver} {entry name text gap instead : Bytes}
    {seed : Int} {follow : Bool} (hgap : gap ≠ []) (hblank : ∀ b ∈ gap, isBlank b = true)
    (hinstead : ∀ b ∈ instead, isBlank b = true) {s : Session}
    (h : parse name text (make (some l) resolver entry seed follow) = .ok () s) :
    (∃ n, ((Reader.step l resolver)^[n] (Reader.start name text)).frames = []) ∧
    ∀ n, ((Reader.step l resolver)^[n] (Reader.start name text)).frames = [] → ∀ resolver' path, ∃ w,
      Build.source resolver' none ⟨path, Reader.unfolding gap instead l resolver n (Reader.start name text)⟩ {} =
        .ok () w ∧
      w.report.entries = [] ∧ w.registry.Same s.workspace.registry := by
  obtain ⟨paths, hsize, hpaths⟩ := hl
  obtain ⟨w, hruns, hclean, rfl⟩ := runs_of_parse h
  have hunmarked : (Reader.start name text).workspace.unmarked paths ≤ l.size :=
    Nat.le_trans (List.length_filter_le _ _) hsize
  obtain ⟨m, opened, hsteps, hreplaces⟩ := Reader.replaces_of_cleanRuns hpaths hgap hblank hinstead (hruns.clean hclean)
    (within_start _) (Reader.valid_start name text).requests hunmarked [] (Reader.start name text).opened
  have hempty : ((Reader.step l resolver)^[m] (Reader.start name text)).frames = [] := congrArg Reader.frames hsteps
  refine ⟨⟨m, hempty⟩, fun n hn resolver' path => ?_⟩
  have hinitial : ({} : Workspace).registry.Same (Reader.start name text).workspace.registry := by
    simp only [Reader.start, entering]
    split
    · exact ⟨rfl, rfl⟩
    · exact Registry.same_markImported _ _
  have hleads := hreplaces.leads [] w.registry stops_nil fun src r hr => ⟨[], .nil (List.forall_mem_nil _), hr⟩
  rw [List.append_nil] at hleads
  rw [Reader.unfolding_eq gap instead l resolver hn hempty]
  obtain ⟨fns, hfns, hsame⟩ := hleads ⟨path, Reader.unfolding gap instead l resolver m (Reader.start name text)⟩ _
    hinitial
  exact ⟨_, (hfns.cleanRuns resolver' (Source.start ⟨path, _⟩).faces_self (within_start _) rfl).source, rfl, hsame⟩

/-- Files that import each other and the main source. Every import but the first two is replaced by one blank. -/
theorem parse_includes_cycle :
    let l := Loader.ofFiles [(utf8 "b", utf8 "import \"c\"function f => h"),
      (utf8 "c", utf8 "import \"./b\" import \"a\"function h => 1")]
    let start := Reader.start (utf8 "a") (utf8 "import \"b\"import \"c\"function g => f")
    let whole := utf8 "   function h => 1\nfunction f => h\n function g => f"
    ∃ s w, parse (utf8 "a") (utf8 "import \"b\"import \"c\"function g => f")
        (make (some l) (Resolver.make [] []) [] 1 false) = .ok () s ∧
      ((Reader.step l (Resolver.make [] []))^[11] start).frames = [] ∧
      Reader.unfolding (utf8 "\n") (utf8 " ") l (Resolver.make [] []) 11 start = whole ∧
      Build.source (Resolver.make [] []) none ⟨utf8 "a", whole⟩ {} = .ok () w ∧ w.report.entries = [] ∧
      w.registry.Same s.workspace.registry := by
  intro l start whole
  obtain ⟨⟨⟩, s, h⟩ := exists_of_ends (show ends (parse (utf8 "a") (utf8 "import \"b\"import \"c\"function g => f")
    (make (some l) (Resolver.make [] []) [] 1 false)) = true by decide +kernel)
  have hempty : ((Reader.step l (Resolver.make [] []))^[11] start).frames = [] := List.isEmpty_iff.1 (by decide +kernel)
  have hwhole : Reader.unfolding (utf8 "\n") (utf8 " ") l (Resolver.make [] []) 11 start = whole := by decide +kernel
  have hgap : ∀ b ∈ utf8 "\n", isBlank b = true := by decide +kernel
  have hinstead : ∀ b ∈ utf8 " ", isBlank b = true := by decide +kernel
  obtain ⟨-, hread⟩ := parse_includes (Loader.ofFiles_bounded _) (by decide) hgap hinstead h
  obtain ⟨w, hw, hreport, hsame⟩ := hread 11 hempty (Resolver.make [] []) (utf8 "a")
  exact ⟨s, w, h, hempty, hwhole, hwhole ▸ hw, hreport, hsame⟩

/-- Without a gap the last token of a file goes on in the source that imports it. -/
theorem parse_joined :
    let l := Loader.ofFiles [(utf8 "b", utf8 "function f => 1")]
    let start := Reader.start (utf8 "a") (utf8 "import \"b\"function g => 2")
    let whole := utf8 "function f => 1function g => 2"
    ∃ s w, parse (utf8 "a") (utf8 "import \"b\"function g => 2") (make (some l) (Resolver.make [] []) [] 1 false) =
        .ok () s ∧
      ((Reader.step l (Resolver.make [] []))^[5] start).frames = [] ∧
      Reader.unfolding [] (utf8 " ") l (Resolver.make [] []) 5 start = whole ∧
      Build.source (Resolver.make [] []) none ⟨utf8 "a", whole⟩ {} = .ok () w ∧
      ¬ w.registry.Same s.workspace.registry := by
  intro l start whole
  obtain ⟨⟨⟩, s, h⟩ := exists_of_ends (show ends (parse (utf8 "a") (utf8 "import \"b\"function g => 2")
    (make (some l) (Resolver.make [] []) [] 1 false)) = true by decide +kernel)
  obtain ⟨⟨⟩, w, hw⟩ := exists_of_ends (show ends (Build.source (Resolver.make [] []) none ⟨utf8 "a", whole⟩ {}) = true
    by decide +kernel)
  refine ⟨s, w, h, List.isEmpty_iff.1 (by decide +kernel), by decide +kernel, hw, fun hsame => ?_⟩
  have hfewer : (match Build.source (Resolver.make [] []) none ⟨utf8 "a", whole⟩ {},
      parse (utf8 "a") (utf8 "import \"b\"function g => 2") (make (some l) (Resolver.make [] []) [] 1 false) with
    | .ok _ w, .ok _ s => decide (w.registry.functions.size < s.workspace.registry.functions.size)
    | _, _ => false) = true := by decide +kernel
  rw [hw, h] at hfewer
  exact Nat.ne_of_lt (of_decide_eq_true hfewer) hsame.size

end Session

end Polish
