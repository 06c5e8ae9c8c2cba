import Asyncify.Proofs.Batches

/-! What a file holds and what is read of it. The two differ in the line endings, and so do a file
and its result when no rule has anything to do. -/
namespace Asyncify

namespace Text

theorem not_mem_unifyNewlines (cs : List Char) : '\r' ∉ unifyNewlines cs := by
  fun_induction unifyNewlines cs with
  | case1 => simp
  | case2 rest ih => simpa using ih
  | case3 c rest _ ih =>
    by_cases hc : c = '\r'
    · simpa [hc] using ih
    · simpa [hc, eq_comm] using ih

theorem unifyNewlines_of_not_mem {cs : List Char} (h : '\r' ∉ cs) : unifyNewlines cs = cs := by
  fun_induction unifyNewlines cs with
  | case1 => rfl
  | case2 rest ih => simp at h
  | case3 c rest _ ih =>
    obtain ⟨hc, hrest⟩ : '\r' ≠ c ∧ '\r' ∉ rest := by simpa using h
    rw [if_neg (Ne.symm hc), ih hrest]

/-- Only a text without a carriage return is read as it stands. -/
theorem unifyNewlines_eq_self_iff {cs : List Char} : unifyNewlines cs = cs ↔ '\r' ∉ cs := by
  constructor
  · intro h
    rw [← h]
    exact not_mem_unifyNewlines cs
  · exact unifyNewlines_of_not_mem

end Text

namespace Files

variable (fs : Files)

/-- The characters at a place as they are stored, line endings included. -/
def contentsAt (names : List String) : Except ReadError (List Char) :=
  match fs.at? names with
  | none => .error .notFound
  | some .directory => .error .isDirectory
  | some (.file bytes) => (Utf8.decode bytes).mapError .invalid

def contents (path : String) : Except ReadError (List Char) := do fs.contentsAt (← fs.resolve path)

variable {fs} {path : String} {cs : List Char}

theorem readAt_eq_contentsAt (fs : Files) (names : List String) :
    fs.readAt names = (fs.contentsAt names).map fun cs =>
      String.ofList (Text.unifyNewlines cs) := by
  rw [readAt, contentsAt]
  cases fs.at? names with
  | none => rfl
  | some entry =>
    cases entry with
    | directory => rfl
    | file bytes =>
      dsimp only
      cases Utf8.decode bytes <;> rfl

theorem read_eq_contents (fs : Files) (path : String) :
    fs.read path = (fs.contents path).map fun cs => String.ofList (Text.unifyNewlines cs) := by
  rw [read, contents]
  cases fs.resolve path with
  | error r => rfl
  | ok names => exact readAt_eq_contentsAt fs names

theorem read_eq_ok {source : String} : fs.read path = .ok source ↔
    ∃ cs, fs.contents path = .ok cs ∧ source = String.ofList (Text.unifyNewlines cs) := by
  rw [read_eq_contents]
  cases fs.contents path with
  | error r => simp [Except.map]
  | ok cs => simp [Except.map, eq_comm]

end Files

namespace Engine

variable {e : Engine} {fs : Files} {path : String} {cs : List Char} {rules : List Rule}

theorem source_of_unchanged {source : String} {r : Result} (hr : e.enabledRules = .ok rules)
    (h : (e.transform source path).value = .ok r) (hc : r.hasChanges = false) :
    r.source = source := by
  cases hp : e.parses path source with
  | false =>
    obtain ⟨pos, herr⟩ := value_transform_of_not_parses hp
    rw [herr] at h
    cases h
  | true =>
    rw [value_transform hr hp] at h
    cases h
    simpa using hc

theorem accepts_iff_parses (h : fs.contents path = .ok cs) :
    e.accepts fs path = e.parses path (String.ofList (Text.unifyNewlines cs)) := by
  have hd := (e.parse (.ofPath path) (String.ofList (Text.unifyNewlines cs))).firstDefect?_isSome
  have hread : fs.read path = .ok (String.ofList (Text.unifyNewlines cs)) :=
    Files.read_eq_ok.2 ⟨cs, h, rfl⟩
  simp only [accepts, refusal?, parses, hread, ← hd, Option.isNone_map]
  cases (e.parse (.ofPath path) (String.ofList (Text.unifyNewlines cs))).firstDefect? <;> rfl

/-- A file is transformed as it is stored if there is no carriage return in it, and otherwise with a
line feed for each of its line endings. Where no rule changes anything, just the files without a
carriage return have a result equal to what they hold. -/
theorem transformFiles_contents (e : Engine) (fs : Files) (paths : List String) {rules : List Rule}
    (hr : e.enabledRules = .ok rules) (hnull : ∀ p ∈ paths, '\x00' ∉ p.toList) :
    (∀ p ∈ paths, ∀ cs, fs.contents p = .ok cs →
      (e.accepts fs p ↔
        (e.parse (.ofPath p) (String.ofList (Text.unifyNewlines cs))).info.hasError = false)) ∧
      ∃ results, (e.transformFiles fs paths).value = .ok results ∧
        List.Forall₂ (fun p r => ∃ cs, fs.contents p = .ok cs ∧
            (e.transform (String.ofList (Text.unifyNewlines cs)) p).value = .ok r ∧
            ('\r' ∉ cs → (e.transform (String.ofList cs) p).value = .ok r) ∧
            (r.hasChanges = false → (r.source = String.ofList cs ↔ '\r' ∉ cs)))
          (paths.filter (e.accepts fs)) results := by
  constructor
  · intro p _ cs hcs
    rw [accepts_iff_parses hcs, parses]
    simp
  refine ⟨_, (transformFiles_of_not_null fs hr hnull).1, ?_⟩
  rw [List.forall₂_map_right_iff]
  refine (forall₂_processed? hr paths).imp fun p x hx => ?_
  obtain ⟨hread, ht⟩ := processed?_eq_some.1 hx
  obtain ⟨cs, hcs, hsource⟩ := Files.read_eq_ok.1 hread
  rw [hsource] at ht
  refine ⟨cs, hcs, ht, ?_, ?_⟩
  · intro hcr
    rw [Text.unifyNewlines_of_not_mem hcr] at ht
    exact ht
  · intro hc
    rw [source_of_unchanged hr ht hc, String.ofList_inj]
    exact Text.unifyNewlines_eq_self_iff

end Engine

namespace ContentSample

/-- One file ends its line with a line feed, the other with a carriage return and a line feed. -/
def files : Files where
  entries := [(["work", "a.js"], .file [120, 10]), (["work", "b.js"], .file [120, 13, 10])]
  workingDirectory := ["work"]

/-- What the files hold, and that no rule changes them. -/
theorem readings :
    ((files.contents "a.js").toOption = some ['x', '\n'] ∧
      (files.contents "b.js").toOption = some ['x', '\r', '\n']) ∧
      ["a.js", "b.js"].filter (BatchSample.engine.accepts files) = ["a.js", "b.js"] ∧
      ((BatchSample.engine.transformFiles files ["a.js", "b.js"]).value.map fun rs =>
        rs.map (·.hasChanges)).toOption = some [false, false] := by
  decide +kernel

end ContentSample

/-- Both files have a result without a change, and only that of the first is what the file holds. -/
theorem Engine.transformFiles_contents_mixed :
    (∃ rules, BatchSample.engine.enabledRules = .ok rules) ∧
      ContentSample.files.contents "a.js" = .ok ['x', '\n'] ∧
      ContentSample.files.contents "b.js" = .ok ['x', '\r', '\n'] ∧
      ∃ r s, (BatchSample.engine.transformFiles ContentSample.files ["a.js", "b.js"]).value =
        .ok [r, s] ∧
        r.hasChanges = false ∧ s.hasChanges = false ∧ r.source = String.ofList ['x', '\n'] ∧
        s.source ≠ String.ofList ['x', '\r', '\n'] := by
  obtain ⟨rules, hr⟩ := BatchSample.enabledRules
  have hnull : ∀ p ∈ ["a.js", "b.js"], '\x00' ∉ p.toList := by decide
  obtain ⟨⟨ha, hb⟩, haccepted, hunchanged⟩ := ContentSample.readings
  obtain ⟨-, results, hv, hall⟩ :=
    transformFiles_contents BatchSample.engine ContentSample.files ["a.js", "b.js"] hr hnull
  rw [haccepted] at hall
  obtain _ | @⟨_, r, _, _, ⟨cs, hcs, -, -, hfirst⟩,
      _ | @⟨_, s, _, _, ⟨ds, hds, -, -, hsecond⟩, _ | _⟩⟩ := hall
  rw [hv] at hunchanged
  obtain ⟨hrc, hsc⟩ : r.hasChanges = false ∧ s.hasChanges = false := by
    simpa [Except.map, Except.toOption] using hunchanged
  rw [Except.toOption_eq_some] at ha hb
  obtain rfl := Except.ok.inj (hcs.symm.trans ha)
  obtain rfl := Except.ok.inj (hds.symm.trans hb)
  exact ⟨⟨rules, hr⟩, ha, hb, r, s, hv, hrc, hsc, (hfirst hrc).2 (by decide),
    fun h => (hsecond hsc).1 h (by decide)⟩

/-- The text in the second file is kept as it stands by all rules, and still its result has another
line ending. -/
theorem Engine.transformFiles_carriageReturn :
    (ContentSample.files.contents "b.js").toOption = some "x\r\n".toList ∧
      ((BatchSample.engine.transform "x\r\n" "b.js").value.map (·.source)).toOption = some "x\r\n" ∧
      ((BatchSample.engine.transformFiles ContentSample.files ["b.js"]).value.map fun rs =>
        rs.map (·.source)).toOption = some ["x\n"] := by
  decide +kernel

end Asyncify
