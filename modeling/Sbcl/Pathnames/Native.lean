import Mathlib.Data.List.Forall2
import Sbcl.Pathnames.Component

/-!
# Native namestrings (code/unix-pathname.lisp, code/target-pathname.lisp)

* `parseNativeUnixNamestring` : the components of a native namestring, as a file or as a directory;
* `unparseNativeUnixNamestring` : the way back, where the home directories are given from outside;
* `squeeze`, `fileForm` : runs of slashes as one, without the one at the end of a directory;
* `nativeDirLoop_spec` : the pieces and the slashes behind them are what was read;
* `unparse_parseNative` : the round trip.

A part of a namestring is the list of its characters with the offset of the first one.
-/

namespace Sbcl.Pathnames

open List

/-- `dir` in `parse-native-unix-namestring` : no piece, or one. -/
def nativeDir (piece : List Char) : List DirComponent :=
  if piece = [] then []
  else if piece = ['.', '.'] then [.up]
  else [.piece (.string piece)]

/-- The loop over the slashes, with the piece since `start`: the directory's pieces, and what is
left. -/
def nativeDirLoop : ℕ → List Char → List Char → List DirComponent × ℕ × List Char
  | start, piece, [] => ([], start, piece)
  | start, piece, c :: cs =>
    if c = '/' then
      let (dirs, rest) := nativeDirLoop (start + piece.length + 1) [] cs
      (nativeDir piece ++ dirs, rest)
    else nativeDirLoop start (piece ++ [c]) cs

/-- The loop for the dot, from an index down to 1. -/
def nativeDotLoop (file : List Char) : ℕ → Option ℕ
  | 0 => none
  | i + 1 => if file[i + 1]? = some '.' then some (i + 1) else nativeDotLoop file i

/-- The name and the type of what is behind the last slash. -/
def nativeFile (start : ℕ) (file : List Char) : Option Component × Option Component :=
  match nativeDotLoop file (file.length - 1) with
  | some dot =>
    if 0 < start + dot then (some (.string (file.take dot)), some (.string (file.drop (dot + 1))))
    else (some (.string file), none)
  | none => (some (.string file), none)

/-- The part of `parse-native-unix-namestring` after the root. -/
def parseNativeFrom (absolute : Bool) (start : ℕ) (namestring : List Char)
    (asDirectory : Bool) : Components :=
  let (dirs, start, file) := nativeDirLoop start [] namestring
  let dirs := if asDirectory then dirs ++ nativeDir file else dirs
  let (name, type) := if asDirectory ∨ file = [] then (none, none) else nativeFile start file
  let directory : Option Directory :=
    if absolute then some ⟨.absolute, dirs⟩
    else if dirs ≠ [] then some ⟨.relative, dirs⟩
    else none
  ⟨directory, name, type, none⟩

def parseNativeUnixNamestring (namestring : List Char) (asDirectory : Bool) : Components :=
  match namestring with
  | [] => ⟨none, none, none, none⟩
  | '/' :: rest => parseNativeFrom true 1 rest asDirectory
  | _ => parseNativeFrom false 0 namestring asDirectory

/-! ## Unparsing -/

/-- `no-native-namestring-error` -/
inductive NativeError where
  /-- "user homedir not known~@[ for ~S~]: ~A" -/
  | homedirNotKnown (username : Option (List Char)) (condition : String)
  /-- "of the directory segment ~S." -/
  | directorySegment (piece : DirComponent)
  /-- "of the ~S component ~S." -/
  | nameComponent (name : Component)
  /-- "of the ~S component ~S" -/
  | typeComponent (type : Component)
  /-- "there is a ~S component but no ~S component" -/
  | typeWithoutName
deriving DecidableEq

/-- `user-homedir-namestring`, which asks the operating system. -/
abbrev Homedirs := Option (List Char) → Except String (List Char)

def nativeHome (homedirs : Homedirs) (username : Option (List Char)) :
    Except NativeError (List Char) :=
  match homedirs username with
  | .error condition => .error (.homedirNotKnown username condition)
  | .ok namestring =>
    .ok (if namestring.getLast? = some '/' then namestring else namestring ++ ['/'])

/-- What is written for the root, and the components after it. -/
def nativeRoot (homedirs : Homedirs) : Option Directory →
    Except NativeError (List Char × List DirComponent)
  | none => .ok ([], [])
  | some ⟨.absolute, .home :: dirs⟩ => do return (← nativeHome homedirs none, dirs)
  | some ⟨.absolute, .homeOf user :: dirs⟩ => do return (← nativeHome homedirs (some user), dirs)
  | some ⟨.absolute, dirs⟩ => .ok (['/'], dirs)
  | some ⟨.relative, dirs⟩ => .ok ([], dirs)

def nativePiece : DirComponent → Except NativeError (List Char)
  | .up => .ok ['.', '.']
  | .back => .ok ['.', '.']
  | .piece (.string piece) => .ok piece
  | piece => .error (.directorySegment piece)

/-- The loop over the directory. -/
def unparseNativeDirs (separatorAfterDirectory : Bool) : List DirComponent →
    Except NativeError (List Char)
  | [] => .ok []
  | piece :: subdirs => do
      let text ← nativePiece piece
      let rest ← unparseNativeDirs separatorAfterDirectory subdirs
      return text ++ (if subdirs ≠ [] ∨ separatorAfterDirectory then ['/'] else []) ++ rest

def unparseNativePhysicalFile : Option Component → Option Component → Except NativeError (List Char)
  | none, none => .ok []
  | none, some _ => .error .typeWithoutName
  | some (.string name), none => .ok name
  | some (.string name), some (.string type) => .ok (name ++ '.' :: type)
  | some (.string _), some type => .error (.typeComponent type)
  | some name, _ => .error (.nameComponent name)

def unparseNativeUnixNamestring (homedirs : Homedirs) (pathname : Components) (asFile : Bool) :
    Except NativeError (List Char) := do
  let separatorAfterDirectory := pathname.name.isSome || !asFile
  let (root, dirs) ← nativeRoot homedirs pathname.directory
  let directory ← unparseNativeDirs separatorAfterDirectory dirs
  let file ← unparseNativePhysicalFile pathname.name pathname.type
  return root ++ directory ++ file

/-- Runs of slashes as one slash, or none if there was one before. -/
def squeeze : Bool → List Char → List Char
  | _, [] => []
  | afterSlash, c :: cs =>
    if c = '/' then (if afterSlash then squeeze true cs else c :: squeeze true cs) else c ::
      squeeze false cs

/-- With runs of slashes as one slash, and without the one at the end of a directory that is not the
root. -/
def fileForm (namestring : List Char) : List Char :=
  let squeezed := squeeze false namestring
  if squeezed.getLast? = some '/' ∧ squeezed ≠ ['/'] then squeezed.dropLast else squeezed

/-! ## Round trip -/

section RoundTrip

variable {dirs : List DirComponent} {piece rest namestring file : List Char} {start start' : ℕ}

/-- A component that a native namestring is parsed to, with its text. -/
def IsNative (text : List Char) (d : DirComponent) : Prop :=
  nativeDir text = [d] ∧ nativePiece d = .ok text ∧ text ≠ []

theorem nativeDir_spec (h : piece ≠ []) : ∃ d, IsNative piece d := by
  unfold IsNative nativeDir
  rw [if_neg h]
  by_cases hup : piece = ['.', '.']
  · subst hup
    exact ⟨.up, rfl, rfl, h⟩
  · rw [if_neg hup]
    exact ⟨_, rfl, rfl, h⟩

/-- The components are those of the texts. -/
def NativeDirs (texts : List (List Char)) (dirs : List DirComponent) : Prop :=
  List.Forall₂ IsNative texts dirs

theorem NativeDirs.ne_nil : ∀ {texts : List (List Char)} {dirs}, NativeDirs texts dirs →
    ∀ text ∈ texts, text ≠ []
  | _, _, .nil, _, hmem => absurd hmem not_mem_nil
  | _, _, .cons hd hdirs, text, hmem => by
    rcases mem_cons.1 hmem with rfl | hmem
    · exact hd.2.2
    · exact NativeDirs.ne_nil hdirs text hmem

/-- Every text with a slash behind it. -/
def withSlashes (texts : List (List Char)) : List Char := texts.flatMap (· ++ ['/'])

theorem nativeDirLoop_spec : ∀ {namestring piece start}, '/' ∉ piece → ∃ texts, ∃ dirs start' file,
    nativeDirLoop start piece namestring = (dirs, start', file) ∧
    NativeDirs texts dirs ∧ '/' ∉ file ∧
      withSlashes texts ++ file = piece ++ squeeze (piece = []) namestring
  | [], piece, start, h => ⟨[], [], start, piece, rfl, .nil, h, by simp [withSlashes, squeeze]⟩
  | c :: cs, piece, start, h => by
    rw [nativeDirLoop]
    by_cases hc : c = '/'
    · subst hc
      obtain ⟨texts, dirs, start', file, hloop, hdirs, hfile, htext⟩ :=
        @nativeDirLoop_spec cs [] (start + piece.length + 1) not_mem_nil
      rw [if_pos rfl, hloop, squeeze, if_pos rfl]
      rw [nil_append, decide_eq_true rfl] at htext
      by_cases hpiece : piece = []
      · subst hpiece
        refine ⟨texts, _, start', file, rfl, hdirs, hfile, ?_⟩
        rw [decide_eq_true rfl, if_pos rfl, htext]
        rfl
      obtain ⟨d, hd⟩ := nativeDir_spec hpiece
      rw [decide_eq_false hpiece, hd.1]
      refine ⟨piece :: texts, _, start', file, rfl, .cons hd hdirs, hfile, ?_⟩
      rw [if_neg (by simp), ← htext]
      simp [withSlashes]
    · rw [if_neg hc, squeeze, if_neg hc]
      obtain ⟨texts, dirs, start', file, hloop, hdirs, hfile, htext⟩ :=
        @nativeDirLoop_spec cs (piece ++ [c]) start (by simp [h, Ne.symm hc])
      refine ⟨texts, dirs, start', file, hloop, hdirs, hfile, ?_⟩
      rw [htext, decide_eq_false (by simp), append_assoc]
      rfl

theorem nativeDotLoop_spec : ∀ {n i}, nativeDotLoop file n = some i → 1 ≤ i ∧ file[i]? = some '.'
  | n + 1, i, h => by
    rw [nativeDotLoop] at h
    split at h
    · rename_i hdot
      obtain rfl := Option.some.inj h
      exact ⟨by omega, hdot⟩
    · exact nativeDotLoop_spec h

theorem unparse_nativeFile (start : ℕ) (file : List Char) :
    (nativeFile start file).1.isSome = true ∧
    unparseNativePhysicalFile (nativeFile start file).1 (nativeFile start file).2 = .ok file := by
  unfold nativeFile
  split
  · rename_i dot hdot
    obtain ⟨hpos, hat⟩ := nativeDotLoop_spec hdot
    rw [if_pos (by omega)]
    refine ⟨rfl, ?_⟩
    obtain ⟨hlt, hget⟩ := List.getElem?_eq_some_iff.1 hat
    show Except.ok (file.take dot ++ '.' :: file.drop (dot + 1)) = .ok file
    rw [← hget, getElem_cons_drop, take_append_drop]
  · exact ⟨rfl, rfl⟩

theorem unparseNativeDirs_separated : ∀ {texts dirs}, NativeDirs texts dirs →
    unparseNativeDirs true dirs = .ok (withSlashes texts)
  | _, _, .nil => rfl
  | _ :: texts, _, .cons hd hdirs => by
    rw [unparseNativeDirs, hd.2.1, unparseNativeDirs_separated hdirs]
    simp [withSlashes, bind, Except.bind, pure, Except.pure]

variable {texts : List (List Char)}

theorem withSlashes_ne_nil (h : texts ≠ []) : withSlashes texts ≠ [] := by
  obtain ⟨text, texts, rfl⟩ := exists_cons_of_ne_nil h
  simp [withSlashes]

theorem unparseNativeDirs_unseparated : ∀ {texts dirs}, NativeDirs texts dirs →
    unparseNativeDirs false dirs = .ok (withSlashes texts).dropLast
  | _, _, .nil => rfl
  | [_], _, .cons hd .nil => by
    rw [unparseNativeDirs, hd.2.1]
    simp [withSlashes, unparseNativeDirs, bind, Except.bind, pure, Except.pure]
  | text :: text' :: texts, _, .cons hd (.cons hd' hdirs) => by
    rw [unparseNativeDirs, hd.2.1, unparseNativeDirs_unseparated (.cons hd' hdirs)]
    have hslashed : withSlashes (text :: text' :: texts) = (text ++ ['/']) ++
        withSlashes (text' :: texts) := rfl
    rw [hslashed, dropLast_append_of_ne_nil (withSlashes_ne_nil (cons_ne_nil _ _))]
    simp [bind, Except.bind, pure, Except.pure]

theorem nativeRoot_absolute (homedirs : Homedirs) (h : NativeDirs texts dirs) :
    nativeRoot homedirs (some ⟨.absolute, dirs⟩) = .ok (['/'], dirs) := by
  cases h with
  | nil => rfl
  | @cons text d texts dirs hd hdirs =>
    have hpiece := hd.2.1
    cases d with
    | home | homeOf user => cases hpiece
    | up | back | wildInferiors | piece c => rfl

theorem nativeRoot_parsed (homedirs : Homedirs) (h : NativeDirs texts dirs) (absolute : Bool) :
    nativeRoot homedirs (if absolute then some ⟨.absolute, dirs⟩ else if dirs ≠ [] then some
      ⟨.relative, dirs⟩ else none) = .ok (if absolute then ['/'] else [], dirs) := by
  cases absolute with
  | true => exact nativeRoot_absolute homedirs h
  | false =>
    by_cases hdirs : dirs = []
    · subst hdirs
      rfl
    · rw [if_neg (by decide), if_pos hdirs]
      rfl

theorem unparse_parseNativeFrom (homedirs : Homedirs) (absolute : Bool) (start : ℕ)
    (namestring : List Char) (asDirectory : Bool) :
    ∃ texts file, '/' ∉ file ∧ (∀ text ∈ texts, text ≠ []) ∧
      withSlashes texts ++ file = squeeze true namestring ∧
      unparseNativeUnixNamestring homedirs
        (parseNativeFrom absolute start namestring asDirectory) true =
        .ok ((if absolute then ['/'] else []) ++ if file = [] then (withSlashes texts).dropLast
          else withSlashes texts ++ file) := by
  obtain ⟨texts, dirs, start', file, hloop, hdirs, hfile, htext⟩ :=
    @nativeDirLoop_spec namestring [] start not_mem_nil
  refine ⟨texts, file, hfile, fun text hmem => ?_, htext, ?_⟩
  · exact NativeDirs.ne_nil hdirs text hmem
  unfold parseNativeFrom unparseNativeUnixNamestring
  rw [hloop]
  by_cases hempty : file = []
  · -- A directory, without a separator at its end.
    subst hempty
    have hnone : nativeDir [] = [] := rfl
    simp only [hnone, append_nil, ite_self, or_true, if_true, Option.isSome_none,
      Bool.not_true, Bool.or_self]
    rw [nativeRoot_parsed homedirs hdirs absolute]
    simp only [bind, Except.bind, unparseNativeDirs_unseparated hdirs]
    simp [unparseNativePhysicalFile, pure, Except.pure]
  · rw [if_neg hempty]
    cases asDirectory with
    | true =>
      obtain ⟨d, hd⟩ := nativeDir_spec hempty
      have hall : NativeDirs (texts ++ [file]) (dirs ++ [d]) := rel_append hdirs (.cons hd .nil)
      simp only [if_true, true_or, hd.1, Option.isSome_none, Bool.not_true, Bool.or_self]
      rw [nativeRoot_parsed homedirs hall absolute]
      simp only [bind, Except.bind, unparseNativeDirs_unseparated hall]
      simp [unparseNativePhysicalFile, withSlashes, pure, Except.pure]
    | false =>
      obtain ⟨hname, htype⟩ := unparse_nativeFile start' file
      simp only [Bool.false_eq_true, if_false, false_or, hempty, hname,
        Bool.not_true, Bool.or_false]
      rw [nativeRoot_parsed homedirs hdirs absolute]
      simp only [bind, Except.bind, unparseNativeDirs_separated hdirs, htype]
      simp [pure, Except.pure]

theorem squeeze_false_slash (rest : List Char) :
    squeeze false ('/' :: rest) = '/' :: squeeze true rest := rfl

theorem squeeze_false_of_ne {c : Char} (h : c ≠ '/') (cs : List Char) :
    squeeze false (c :: cs) = squeeze true (c :: cs) := by
  rw [squeeze, squeeze, if_neg h, if_neg h]

theorem fileForm_eq {root : List Char} (hroot : root = [] ∨ root = ['/']) (hfile : '/' ∉ file)
    (htexts : ∀ text ∈ texts, text ≠ [])
    (h : squeeze false namestring = root ++ (withSlashes texts ++ file)) :
    fileForm namestring = root ++ if file = [] then (withSlashes texts).dropLast
      else withSlashes texts ++ file := by
  unfold fileForm
  rw [h]
  by_cases hempty : file = []
  · subst hempty
    rw [if_pos rfl, append_nil]
    rcases eq_nil_or_concat texts with rfl | ⟨texts, text, rfl⟩
    · rcases hroot with rfl | rfl
      · rfl
      · rfl
    have hne : text ≠ [] := htexts text (by simp)
    have hlast : withSlashes (texts.concat text) = withSlashes texts ++ text ++ ['/'] := by
      simp [withSlashes]
    have hlen : 0 < text.length := length_pos_iff.2 hne
    rw [if_pos, dropLast_append_of_ne_nil (withSlashes_ne_nil (by simp))]
    refine ⟨by rw [hlast]; simp, fun heq => ?_⟩
    have := congrArg List.length heq
    rw [hlast] at this
    simp only [length_append, length_singleton] at this
    omega
  · rw [if_neg hempty, if_neg]
    rintro ⟨hlast, -⟩
    rw [← append_assoc, getLast?_append_of_ne_nil _ hempty] at hlast
    exact hfile (mem_of_getLast? hlast)

/-- A native namestring, parsed as a file or as a directory and unparsed as a file, is as it was but
for runs of slashes and the slash at the end of a directory. -/
theorem unparse_parseNative (homedirs : Homedirs) (namestring : List Char) (asDirectory : Bool) :
    unparseNativeUnixNamestring homedirs (parseNativeUnixNamestring namestring asDirectory) true =
      .ok (fileForm namestring) := by
  unfold parseNativeUnixNamestring
  split
  · rfl
  · rename_i rest
    obtain ⟨texts, file, hfile, htexts, hsqueeze, hunparse⟩ :=
      unparse_parseNativeFrom homedirs true 1 rest asDirectory
    rw [hunparse, fileForm_eq (.inr rfl) hfile htexts (by rw [squeeze_false_slash, hsqueeze]; rfl)]
    rfl
  rename_i hnil hslash
  obtain ⟨texts, file, hfile, htexts, hsqueeze, hunparse⟩ :=
    unparse_parseNativeFrom homedirs false 0 namestring asDirectory
  obtain ⟨c, cs, rfl⟩ := exists_cons_of_ne_nil hnil
  have hc : c ≠ '/' := by
    rintro rfl
    exact hslash cs rfl
  rw [hunparse, fileForm_eq (.inl rfl) hfile htexts (by rw [squeeze_false_of_ne hc, hsqueeze]; rfl)]
  rfl

example : fileForm "//a/..///b.c./".toList = "/a/../b.c.".toList := by decide

end RoundTrip

end Sbcl.Pathnames
