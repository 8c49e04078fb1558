import Little.Command.Files
import Mathlib.Data.List.TakeWhile

/-!
# The plain form of a path

The plain form of a path leads to the same file (`Files.read_plain_path`). The parts that do not
count only ask that there be a directory where they stand, so leaving them out changes nothing where
the path leads to a file; and the plain form is no longer than the path.
-/

namespace Little

theorem Place.enter_of_stays {part : PathPart} (place : Place) (h : stays part = true) :
    place.enter part = place := by
  unfold enter
  exact if_pos h

namespace Files

/-- Parts with slashes between them. -/
def join (parts : List PathPart) : List Char := ['/'].intercalate parts

theorem join_singleton (part : PathPart) : join [part] = part := List.intercalate_singleton

theorem join_cons (part : PathPart) {parts : List PathPart} (h : parts ≠ []) :
    join (part :: parts) = part ++ '/' :: join parts := by
  rw [join, List.intercalate_cons_of_ne_nil h, List.append_assoc]
  rfl

theorem cut_ne_nil (path : List Char) : cut path ≠ [] := by
  fun_cases cut path <;> exact List.cons_ne_nil _ _

/-- The parts of a path, joined again, are the path. -/
theorem join_cut (path : List Char) : join (cut path) = path := by
  fun_induction cut path with
  | case1 => rfl
  | case2 rest ih => rw [join_cons _ (cut_ne_nil rest), ih]; rfl
  | case3 c rest _ hcut => exact absurd hcut (cut_ne_nil rest)
  | case4 c rest _ part parts hcut ih =>
      rw [hcut] at ih
      cases parts with
      | nil => exact congrArg (c :: ·) ih
      | cons next parts =>
          rw [join_cons _ (List.cons_ne_nil _ _)] at ih ⊢
          exact congrArg (c :: ·) ih

/-- No part has a slash in it. -/
theorem slash_not_mem_of_cut (path : List Char) : ∀ part ∈ cut path, '/' ∉ part := by
  fun_induction cut path with
  | case1 => simp
  | case2 rest ih => exact List.forall_mem_cons.2 ⟨List.not_mem_nil, ih⟩
  | case3 c rest _ hcut => exact absurd hcut (cut_ne_nil rest)
  | case4 c rest hc part parts hcut ih =>
      rw [hcut, List.forall_mem_cons] at ih
      refine List.forall_mem_cons.2 ⟨fun hmem => ?_, ih.2⟩
      rcases List.mem_cons.1 hmem with heq | hmem
      · exact hc heq.symm
      · exact ih.1 hmem

theorem cut_append {part : PathPart} (h : '/' ∉ part) (rest : List Char) :
    cut (part ++ '/' :: rest) = part :: cut rest := by
  induction part with
  | nil => rfl
  | cons c part ih =>
      rw [List.mem_cons, not_or] at h
      rw [List.cons_append, cut, if_neg (Ne.symm h.1), ih h.2]

theorem cut_of_not_mem {part : PathPart} (h : '/' ∉ part) : cut part = [part] := by
  induction part with
  | nil => rfl
  | cons c part ih =>
      rw [List.mem_cons, not_or] at h
      rw [cut, if_neg (Ne.symm h.1), ih h.2]

/-- Parts that were joined can be cut again. -/
theorem cut_join {parts : List PathPart} (hne : parts ≠ []) (h : ∀ part ∈ parts, '/' ∉ part) :
    cut (join parts) = parts := by
  induction parts with
  | nil => exact absurd rfl hne
  | cons part parts ih =>
      rw [List.forall_mem_cons] at h
      cases parts with
      | nil =>
          rw [join_singleton, cut_of_not_mem h.1]
      | cons next parts =>
          rw [join_cons _ (List.cons_ne_nil _ _), cut_append h.1,
            ih (List.cons_ne_nil _ _) h.2]

/-- Leaving out parts leaves out characters. -/
theorem join_filter_sublist (isKept : PathPart → Bool) (parts : List PathPart) :
    (join (parts.filter isKept)).Sublist (join parts) := by
  induction parts with
  | nil => exact List.Sublist.refl _
  | cons part parts ih =>
      by_cases hparts : parts = []
      · subst hparts
        rw [List.filter_cons]
        split
        · exact List.Sublist.refl _
        · exact List.nil_sublist _
      · rw [join_cons part hparts, List.filter_cons]
        split
        · by_cases hkept : parts.filter isKept = []
          · rw [hkept, join_singleton]
            exact List.sublist_append_left _ _
          · rw [join_cons part hkept]
            exact (List.Sublist.refl part).append (ih.cons_cons '/')
        · -- a part that is left out takes the slash behind it along
          exact (ih.cons '/').trans (List.sublist_append_right _ _)

section Follow

variable {files : Files} {path other : String} {place : Place} {part : PathPart}
  {parts : List PathPart} {bytes : ByteArray}

/-- A part that stays where one is asks only for a directory there. -/
theorem follow_stay (hplace : files.entry? place = some .directory)
    (h : Place.stays part = true) :
    follow files path place .directory (part :: parts) =
      follow files path place .directory parts := by
  have hpart : part = [] ∨ part = ['.'] := by simpa [Place.stays] using h
  have hshort : ¬ longestName < (String.ofList part).utf8ByteSize := by
    rcases hpart with rfl | rfl <;> decide
  rw [follow, if_neg hshort, Place.enter_of_stays place h, hplace]

/-- A part that is followed on the way to a file leads to a directory, or to the file if it is the
last part. -/
theorem follow_cons (h : follow files path place .directory (part :: parts) = .ok (.file bytes)) :
    ¬ longestName < (String.ofList part).utf8ByteSize ∧
      (files.entry? (place.enter part) = some .directory ∧
          follow files path (place.enter part) .directory parts = .ok (.file bytes) ∨
        files.entry? (place.enter part) = some (.file bytes) ∧ parts = []) := by
  rw [follow] at h
  split at h
  · cases h
  · next hshort =>
    refine ⟨hshort, ?_⟩
    split at h
    · cases h
    · next entry hentry =>
      cases entry with
      | directory => exact .inl ⟨hentry, h⟩
      | file content =>
          cases parts with
          | nil =>
              cases h
              exact .inr ⟨hentry, rfl⟩
          | cons next parts => cases h

/-- Where a directory stands, no part that stays there leads to a file. -/
theorem not_follow_stay (hplace : files.entry? place = some .directory)
    (h : Place.stays part = true) :
    follow files path place .directory [part] ≠ .ok (.file bytes) := by
  rw [follow_stay hplace h]
  exact nofun

/-- The parts that count lead to the same file, whatever the path is called. The only path without
one that can lead to a file is a single part. -/
theorem follow_filter (other : String)
    (h : follow files path place .directory parts = .ok (.file bytes)) :
    follow files other place .directory (parts.filter fun part => !Place.stays part) =
        .ok (.file bytes) ∨
      ∃ part, parts = [part] ∧ Place.stays part = true := by
  induction parts generalizing place with
  | nil => cases h
  | cons part parts ih =>
      obtain ⟨hshort, ⟨hentry, hrest⟩ | ⟨hentry, rfl⟩⟩ := follow_cons h
      · -- what follows is more than one part that stays where the directory is
        have hkept := (ih hrest).resolve_right fun ⟨last, hlast, hstays⟩ =>
          not_follow_stay hentry hstays (hlast ▸ hrest)
        left
        rw [List.filter_cons]
        split
        · rw [follow, if_neg hshort, hentry]
          exact hkept
        · next hstays =>
          rw [Bool.not_eq_true', Bool.not_eq_false] at hstays
          rwa [Place.enter_of_stays place hstays] at hkept
      · by_cases hstays : Place.stays part = true
        · exact .inr ⟨part, rfl, hstays⟩
        · left
          rw [List.filter_cons, if_pos (by simpa using hstays), follow, if_neg hshort, hentry]
          rfl

/-- A path that leads to a file is a path, and its parts lead there. -/
theorem follow_of_read (h : files.read path = .ok bytes) :
    '\x00' ∉ path.toList ∧ path ≠ "" ∧ path.utf8ByteSize ≤ longestPath ∧
      follow files path (.origin path.toList) .directory (cut path.toList) =
        .ok (.file bytes) := by
  unfold read resolve at h
  split at h
  · next content hresolve =>
    cases h
    split at hresolve
    · cases hresolve
    · next hnull =>
      split at hresolve
      · cases hresolve
      · next hne =>
        split at hresolve
        · cases hresolve
        · next hsize =>
          exact ⟨fun hmem => hnull (List.contains_iff_mem.2 hmem), hne, Nat.le_of_not_lt hsize,
            hresolve⟩
  · cases h
  · cases h

theorem read_of_follow (hnull : '\x00' ∉ path.toList) (hne : path ≠ "")
    (hsize : path.utf8ByteSize ≤ longestPath)
    (h : follow files path (.origin path.toList) .directory (cut path.toList) =
      .ok (.file bytes)) : files.read path = .ok bytes := by
  unfold read resolve
  rw [if_neg fun hmem => hnull (List.contains_iff_mem.1 hmem), if_neg hne,
    if_neg (Nat.not_lt_of_le hsize), h]

end Follow

section Plain

variable {path : List Char}

theorem nil_not_mem_parts (path : List Char) : [] ∉ parts path := fun h =>
  absurd (List.mem_filter.1 h).2 (by decide)

theorem cut_join_parts (h : parts path ≠ []) : cut (join (parts path)) = parts path :=
  cut_join h fun part hmem => slash_not_mem_of_cut path part (List.mem_filter.1 hmem).1

/-- The parts that count begin with a character that is no slash. -/
theorem head_join_parts (h : parts path ≠ []) :
    ∃ c rest, join (parts path) = c :: rest ∧ c ≠ '/' := by
  have hcut := cut_join_parts h
  have hnil := nil_not_mem_parts path
  cases hjoin : join (parts path) with
  | nil =>
      rw [hjoin] at hcut
      exact absurd (hcut ▸ List.mem_cons_self) hnil
  | cons c rest =>
      refine ⟨c, rest, rfl, ?_⟩
      rintro rfl
      rw [hjoin] at hcut
      exact absurd (hcut ▸ List.mem_cons_self) hnil

theorem parts_drop_slashes (path : List Char) :
    parts (path.dropWhile (· = '/')) = parts path := by
  induction path with
  | nil => rfl
  | cons c rest ih =>
      rw [List.dropWhile_cons]
      split
      · next hc =>
        obtain rfl : c = '/' := of_decide_eq_true hc
        exact ih
      · rfl

/-- How a plain form begins, and what that adds to its parts. -/
theorem root_text_cases (path : List Char) :
    path.head? ≠ some '/' ∧ rootText path = "" ∨
      path.head? = some '/' ∧ (rootText path = "/" ∨ rootText path = "//") := by
  cases path with
  | nil => exact .inl ⟨nofun, rfl⟩
  | cons c rest =>
      by_cases hc : c = '/'
      · subst hc
        right
        refine ⟨rfl, ?_⟩
        unfold rootText
        rw [List.takeWhile_cons, if_pos (by decide), List.length_cons]
        split
        · next hlength => exact absurd hlength (Nat.succ_ne_zero _)
        · exact .inr rfl
        · exact .inl rfl
      · left
        refine ⟨fun heq => hc (Option.some.inj heq), ?_⟩
        unfold rootText
        rw [List.takeWhile_cons, if_neg (by simpa using hc)]
        rfl

theorem root_text_sublist (path : List Char) :
    (rootText path).toList.Sublist (path.takeWhile (· = '/')) := by
  have hslashes : path.takeWhile (· = '/') =
      List.replicate (path.takeWhile (· = '/')).length '/' :=
    List.eq_replicate_of_mem fun c hmem => by simpa using List.mem_takeWhile_imp hmem
  unfold rootText
  rw [hslashes]
  generalize (path.takeWhile (· = '/')).length = length
  rw [List.length_replicate]
  split
  · exact List.nil_sublist _
  · exact List.Sublist.refl _
  · next hzero _ =>
    exact List.replicate_sublist_replicate '/' |>.2 (Nat.one_le_iff_ne_zero.2 hzero)

/-- The plain form of a path without the point that stands for the directory one is in. -/
def plainText (path : List Char) : List Char := (rootText path).toList ++ join (parts path)

theorem plain_text_ne_nil (h : parts path ≠ []) : plainText path ≠ [] := by
  obtain ⟨c, rest, hjoin, -⟩ := head_join_parts h
  rw [plainText, hjoin]
  exact List.append_ne_nil_of_right_ne_nil _ (List.cons_ne_nil c rest)

/-- A plain form has no characters but those of the path. -/
theorem plain_text_sublist (path : List Char) : (plainText path).Sublist path := by
  have hparts := join_filter_sublist (fun part => !Place.stays part)
    (cut (path.dropWhile (· = '/')))
  rw [join_cut] at hparts
  have hboth := (root_text_sublist path).append hparts
  rw [List.takeWhile_append_dropWhile] at hboth
  rwa [plainText, ← parts_drop_slashes]

theorem origin_plain_text (h : parts path ≠ []) :
    Place.origin (plainText path) = Place.origin path := by
  obtain ⟨c, rest, hjoin, hc⟩ := head_join_parts h
  unfold Place.origin plainText
  rw [hjoin]
  rcases root_text_cases path with ⟨hhead, hroot⟩ | ⟨hhead, hroot | hroot⟩
  · rw [hroot, if_neg hhead]
    exact if_neg fun heq => hc (Option.some.inj heq)
  · rw [hroot, if_pos hhead]
    rfl
  · rw [hroot, if_pos hhead]
    rfl

/-- A plain form is followed like the parts that count. -/
theorem follow_plain_text {files : Files} {other : String} {place : Place}
    (h : parts path ≠ [])
    (hroot : path.head? = some '/' → files.entry? place = some .directory) :
    follow files other place .directory (cut (plainText path)) =
      follow files other place .directory (parts path) := by
  have hcut := cut_join_parts h
  unfold plainText
  rcases root_text_cases path with ⟨-, htext⟩ | ⟨hhead, htext | htext⟩
  · rw [htext]
    exact congrArg _ hcut
  -- every slash in front is an empty part, which stays at the root
  · rw [htext, show cut ("/".toList ++ join (parts path)) = [] :: cut (join (parts path)) from rfl,
      hcut, follow_stay (hroot hhead) rfl]
  · rw [htext, show cut ("//".toList ++ join (parts path)) =
      [] :: [] :: cut (join (parts path)) from rfl, hcut, follow_stay (hroot hhead) rfl,
      follow_stay (hroot hhead) rfl]

theorem plain_path_eq {path : String} (h : parts path.toList ≠ []) :
    plainPath path = String.ofList (plainText path.toList) := by
  have htext : rootText path.toList ++
      "/".intercalate ((parts path.toList).map String.ofList) =
        String.ofList (plainText path.toList) := by
    refine String.toList_inj.1 ?_
    rw [String.toList_append, String.toList_intercalate, List.map_map, String.toList_ofList]
    simp [plainText, join, Function.comp_def]
  unfold plainPath
  rw [htext]
  exact if_neg fun hempty => plain_text_ne_nil h (String.ofList_eq_empty_iff.1 hempty)

/-- What stands in joined parts, other than a slash, stands in one of them. -/
theorem mem_join_iff {c : Char} (hc : c ≠ '/') {parts : List PathPart} :
    c ∈ join parts ↔ ∃ part ∈ parts, c ∈ part := by
  induction parts with
  | nil => simp [join]
  | cons part parts ih =>
      by_cases hparts : parts = []
      · subst hparts
        simp [join_singleton]
      · rw [join_cons part hparts]
        simp [ih, hc]

/-- The plain form keeps every character that is neither a slash nor a point. -/
theorem mem_plain_path_iff {path : String} {c : Char} (hslash : c ≠ '/') (hpoint : c ≠ '.') :
    c ∈ (plainPath path).toList ↔ c ∈ path.toList := by
  -- a part with such a character in it counts
  have hcount : c ∈ path.toList → ∃ part ∈ parts path.toList, c ∈ part := by
    intro hmem
    rw [← join_cut path.toList, mem_join_iff hslash] at hmem
    obtain ⟨part, hpart, hc⟩ := hmem
    have hstays : Place.stays part = false := by
      unfold Place.stays
      rw [Bool.or_eq_false_iff, decide_eq_false_iff_not, decide_eq_false_iff_not]
      refine ⟨List.ne_nil_of_mem hc, ?_⟩
      rintro rfl
      exact hpoint (List.mem_singleton.1 hc)
    exact ⟨part, List.mem_filter.2 ⟨hpart, by rw [hstays]; rfl⟩, hc⟩
  by_cases hparts : parts path.toList = []
  · rw [hparts] at hcount
    have hpath : c ∉ path.toList := fun hmem => by simpa using hcount hmem
    have hplain : plainPath path = "." ∨ plainPath path = "/" ∨ plainPath path = "//" := by
      unfold plainPath
      rw [hparts]
      rcases root_text_cases path.toList with ⟨-, htext⟩ | ⟨-, htext | htext⟩ <;>
        rw [htext] <;> decide
    rcases hplain with hplain | hplain | hplain <;> simp [hplain, hpath, hslash, hpoint]
  · rw [plain_path_eq hparts, String.toList_ofList]
    constructor
    · intro hmem
      exact (plain_text_sublist path.toList).subset hmem
    · intro hmem
      exact List.mem_append_right _ ((mem_join_iff hslash).2 (hcount hmem))

/-- A text with fewer characters has no more bytes. -/
theorem byte_size_le_of_sublist {text other : List Char} (h : text.Sublist other) :
    (String.ofList text).utf8ByteSize ≤ (String.ofList other).utf8ByteSize := by
  induction h with
  | slnil => exact Nat.le_refl _
  | cons c _ ih =>
      rw [String.ofList_cons, String.utf8ByteSize_append]
      exact Nat.le_add_left_of_le ih
  | cons_cons c _ ih =>
      rw [String.ofList_cons, String.ofList_cons, String.utf8ByteSize_append,
        String.utf8ByteSize_append]
      exact Nat.add_le_add_left ih _

end Plain

section Read

variable {files : Files} {path : String} {bytes : ByteArray}

/-- A path that begins with a slash and leads to a file starts from a directory: the part before the
slash is empty, and more follows behind it. -/
theorem entry_origin_of_follow
    (h : follow files path (.origin path.toList) .directory (cut path.toList) =
      .ok (.file bytes)) (hhead : path.toList.head? = some '/') :
    files.entry? (.origin path.toList) = some .directory := by
  obtain ⟨rest, hpath⟩ := List.head?_eq_some_iff.1 hhead
  rw [hpath] at h ⊢
  rcases (follow_cons h).2 with ⟨hentry, -⟩ | ⟨-, hlast⟩
  · rwa [Place.enter_of_stays _ rfl] at hentry
  · exact absurd hlast (cut_ne_nil rest)

/-- The plain form of a path with parts that count leads where these parts lead. -/
theorem read_plain_path_of_follow (h : files.read path = .ok bytes)
    (hkept : follow files (plainPath path) (.origin path.toList) .directory (parts path.toList) =
      .ok (.file bytes)) : files.read (plainPath path) = .ok bytes := by
  obtain ⟨hnull, hne, hsize, hfollow⟩ := follow_of_read h
  have hparts : parts path.toList ≠ [] := by
    intro hnil
    rw [hnil] at hkept
    cases hkept
  have hsublist := plain_text_sublist path.toList
  rw [plain_path_eq hparts] at hkept ⊢
  refine read_of_follow ?_ ?_ ?_ ?_
  · rw [String.toList_ofList]
    exact fun hmem => hnull (hsublist.subset hmem)
  · exact fun hempty => plain_text_ne_nil hparts (String.ofList_eq_empty_iff.1 hempty)
  · refine Nat.le_trans (byte_size_le_of_sublist hsublist) ?_
    rwa [String.ofList_toList]
  · rw [String.toList_ofList, origin_plain_text hparts,
      follow_plain_text hparts (entry_origin_of_follow hfollow)]
    exact hkept

/-- The plain form of a path leads to the same file. -/
theorem read_plain_path (h : files.read path = .ok bytes) :
    files.read (plainPath path) = .ok bytes := by
  obtain ⟨-, hne, -, hfollow⟩ := follow_of_read h
  rcases follow_filter (plainPath path) hfollow with hkept | ⟨part, hcut, hstays⟩
  · exact read_plain_path_of_follow h hkept
  · -- the path is a single point, which is its own plain form
    have hpath : path.toList = part := by
      rw [← join_cut path.toList, hcut, join_singleton]
    have hpart : part = [] ∨ part = ['.'] := by simpa [Place.stays] using hstays
    rcases hpart with rfl | rfl
    · exact absurd (String.toList_eq_nil_iff.1 hpath) hne
    · obtain rfl : path = "." := String.toList_inj.1 hpath
      exact h

end Read

end Files

end Little
