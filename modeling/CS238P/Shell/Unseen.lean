import CS238P.Shell.Display
import Mathlib.Data.List.DropRight

set_option autoImplicit false

/-! # What the user never sees

`shell` erases what is behind the cursor when a command is done, and `read_line` paints its prompt from
the start of the row that the cursor is in. So a line that a command prints without ending it (two of
the messages of `p3/main.c` are such lines) is gone before the next key is read: the screen is the one
of a program that does not print it. -/

namespace CS238P.Shell

open CObject Terminal

/-- The lines that are ended. -/
def ended (bs : List UInt8) : List UInt8 := bs.rdropWhile (· ≠ 10)

/-- The line that is not. -/
def unended (bs : List UInt8) : List UInt8 := bs.rtakeWhile (· ≠ 10)

theorem ended_append_unended (bs : List UInt8) : ended bs ++ unended bs = bs :=
  List.rdropWhile_append_rtakeWhile

variable {bs : List UInt8} {t t' : Terminal}

theorem Printed.ended (h : Printed bs) : Printed (ended bs) := fun b hb =>
  h b ((List.rdropWhile_prefix _ _).subset hb)

theorem Printed.unended (h : Printed bs) : Plain (unended bs) := fun b hb =>
  (h b ((List.rtakeWhile_suffix _ _).subset hb)).resolve_left
    (by simpa using List.mem_rtakeWhile_imp hb)

/-- The lines that are ended leave the cursor at the start of a row. -/
theorem write_ended (hmode : t.mode = .ground) (hcol : t.col = 0) (h : Printed bs) :
    (t.write (ended bs)).col = 0 := by
  rcases List.eq_nil_or_concat' (ended bs) with hnil | ⟨front, b, hlast⟩
  · rw [hnil]
    exact hcol
  · have hb : b = 10 := by
      have hne : ended bs ≠ [] := by simp [hlast]
      have hget : (ended bs).getLast hne = b := by simp [hlast]
      have hlf : ¬ decide ((ended bs).getLast hne ≠ 10) := List.rdropWhile_last_not _ bs hne
      rw [← hget]
      simpa using hlf
    subst hb
    have hfront : Printed front := fun b hb => h.ended b (by simp [hlast, hb])
    obtain ⟨hground, -⟩ := write_printed hmode hfront
    rw [hlast, write_append]
    show ((t.write front).feed 10).col = 0
    unfold feed
    rw [if_neg (by decide), hground]
    simp only [character, if_true]
    unfold newline
    split_ifs <;> rfl

/-- Two terminals that differ in the row of the cursor and below at most. -/
structure SameAbove (t t' : Terminal) : Prop where
  width : t.width = t'.width
  height : t.height = t'.height
  row : t.row = t'.row
  mode : t.mode = t'.mode
  answers : t.answers = t'.answers
  cells : ∀ r < t.row, ∀ x, t.cells r x = t'.cells r x

/-- They show a line that is edited alike. -/
theorem SameAbove.display (h : SameAbove t t') (text : Text) :
    display t t.row text = display t' t'.row text := by
  unfold Shell.display
  rw [← h.row]
  simp only [Terminal.mk.injEq, h.width, h.height, h.answers, true_and, and_true]
  funext r x
  split_ifs with hr
  · exact h.cells r hr x
  · rfl
  · rfl

/-- A line that is not ended changes the row of the cursor alone. -/
theorem sameAbove_unended (hmode : t.mode = .ground) (hcol : t.col = 0) (h : Printed bs)
    (hshort : (unended bs).length ≤ t.width) :
    SameAbove (t.write bs).clear (t.write (ended bs)).clear := by
  obtain ⟨hground, -⟩ := write_printed hmode h.ended
  have hsize := (t.write_size (ended bs)).1
  have hrow := write_chars hground h.unended (by rw [hsize, write_ended hmode hcol h]; omega)
  rw [← write_append, ended_append_unended] at hrow
  rw [hrow]
  refine ⟨rfl, rfl, rfl, rfl, rfl, fun r hr x => ?_⟩
  have hr : r < (t.write (ended bs)).row := hr
  simp [clear, hr, hr.ne]

/-! ## Turns -/

/-- Two pages that differ in what a command has just printed at most, or in the last that was
    printed. -/
structure Page.Twin (p p' : Page) : Prop where
  desk : p.desk = p'.desk
  asked : p.asked = p'.asked
  term : match p.desk.doing with
    | .reading => SameAbove p.term p'.term
    | .returned => True
    | _ => p.term = p'.term

/-- The line that is not ended is as wide as the screen at most. -/
def Page.Short (out : ℕ → List UInt8 → List UInt8) (p : Page) : Prop :=
  ∀ line, p.desk.doing = .calling line →
    (unended (out p.desk.history.length line)).length ≤ p.term.width

instance (out : ℕ → List UInt8 → List UInt8) (n width : ℕ) : ∀ doing : Doing,
    Decidable (∀ line, doing = .calling line → (unended (out n line)).length ≤ width)
  | .calling line => decidable_of_iff ((unended (out n line)).length ≤ width)
      ⟨fun h _ hline => Doing.calling.inj hline ▸ h, fun h => h line rfl⟩
  | .reading => isTrue fun _ hline => Doing.noConfusion hline
  | .editing _ => isTrue fun _ hline => Doing.noConfusion hline
  | .returned => isTrue fun _ hline => Doing.noConfusion hline

instance (out : ℕ → List UInt8 → List UInt8) : DecidablePred (Page.Short out) := fun p =>
  inferInstanceAs (Decidable (∀ line, p.desk.doing = .calling line →
    (unended (out p.desk.history.length line)).length ≤ p.term.width))

section

variable {nocolor : Bool} {fnc : Fnc} {called : Callback} {out : ℕ → List UInt8 → List UInt8}
  {ahead : ℕ → ℕ} {p p' : Page} {c : Console}

theorem Page.twin_self (p : Page) : p.Twin p where
  desk := rfl
  asked := rfl
  term := by
    cases p.desk.doing with
    | reading => exact ⟨rfl, rfl, rfl, rfl, rfl, fun _ _ _ => rfl⟩
    | editing | calling => rfl
    | returned => trivial

/-- **One turn** of two shells. The commands of the second print what is ended alone. -/
theorem Page.Twin.step (h : p.Twin p') (hp : p.Shown c) (hout : ∀ k s, Plain s → Printed (out k s))
    (hshort : p.Short out) :
    (p.step called out ahead).Twin (p'.step called (fun k s => ended (out k s)) ahead) := by
  obtain ⟨desk, term, asked⟩ := p
  obtain ⟨desk', term', asked'⟩ := p'
  obtain ⟨hdesk, hasked, hterm⟩ := h
  obtain rfl : desk = desk' := hdesk
  obtain rfl : asked = asked' := hasked
  cases hdoing : desk.doing with
  | reading =>
      rw [hdoing] at hterm
      have hstarts (input : List UInt8) : (Desk.step called { desk with input := input }).doing =
          .editing (Editor.start desk.history) := by
        unfold Desk.step
        simp only [hdoing]
      unfold Page.step Page.show
      simp only [hdoing] at hstarts ⊢
      simp only [hstarts, hterm.display]
      exact Page.twin_self _
  | editing ed =>
      rw [hdoing] at hterm
      obtain rfl : term = term' := hterm
      have hstep : Page.step called (fun k s => ended (out k s)) ahead ⟨desk, term, asked⟩ =
          Page.step called out ahead ⟨desk, term, asked⟩ := by
        unfold Page.step
        simp only [hdoing]
      rw [hstep]
      exact Page.twin_self _
  | calling line =>
      rw [hdoing] at hterm
      obtain rfl : term = term' := hterm
      have hline : Plain line := by
        have := hp.plain.2
        rwa [hdoing] at this
      have habove := sameAbove_unended hp.mode (hp.ended line hdoing).1
        (hout desk.history.length line hline) (hshort line hdoing)
      unfold Page.step
      simp only [hdoing]
      refine ⟨rfl, rfl, ?_⟩
      have hnext : (desk.step called).doing = .returned ∨ (desk.step called).doing = .reading := by
        unfold Desk.step
        rw [hdoing]
        simp only
        split_ifs <;> simp
      rcases hnext with hnext | hnext
      · simp only [hnext]
      · simpa only [hnext, reduceCtorEq, if_false] using habove
  | returned =>
      unfold Page.step
      simp only [hdoing]
      exact ⟨rfl, rfl, by simp only [hdoing]⟩

theorem Page.step_width (p : Page) : (p.step called out ahead).term.width = p.term.width := by
  have hshow (d : Desk) (row asked : ℕ) : (Page.show d p.term row asked).term.width =
      p.term.width := by
    unfold Page.show
    cases d.doing with
    | editing ed => rfl
    | reading | calling | returned => exact p.term.newline_size.1
  unfold Page.step
  cases p.desk.doing with
  | reading => exact hshow _ _ _
  | editing ed => exact hshow _ _ _
  | calling line =>
      simp only
      split_ifs
      · exact (p.term.write_size _).1
      · exact (p.term.write_size _).1
  | returned => rfl

theorem Page.after_width (p : Page) (k : ℕ) :
    (Machine.afterSpec (Page.step called out ahead) p k).term.width = p.term.width := by
  induction k with
  | zero => rfl
  | succ k ih => rw [Machine.afterSpec, Page.step_width, ih]

theorem Page.Twin.good {out' : ℕ → List UInt8 → List UInt8} (h : p.Twin p')
    (hnext : (p.step called out ahead).Twin (p'.step called out' ahead))
    (hwidth : p.term.width = p'.term.width) (hgood : p.Good called out ahead) :
    p'.Good called out' ahead where
  room := h.desk ▸ hgood.room
  leads := by
    rw [← h.desk, ← h.asked]
    exact hgood.leads
  fits := by
    rw [← hnext.desk, ← hwidth]
    exact hgood.fits

/-! ## Runs -/

/-- **A line that a command does not end is never seen.** Whatever is typed, while a line is edited
    the screen and its cursor are those of a shell whose commands print only the lines that they end.
    It needs what it takes to display the line that is edited; the lines that are not ended may be as
    wide as the screen. -/
theorem unended_unseen {termios : List UInt8} (htermios : termios ≠ []) (nocolor : Bool)
    {t : Terminal} (hleaves : ∀ k s, Plain s → Plain (fnc.leaves k s))
    (hout : ∀ k s, Plain s → Printed (out k s)) (input : List UInt8) (ht : Rests t) (k : ℕ)
    (hgood : ∀ j < k, (Machine.afterSpec (Page.step fnc.called out ahead) (Page.start input t) j).Good
      fnc.called out ahead)
    (hshort : ∀ j < k,
      (Machine.afterSpec (Page.step fnc.called out ahead) (Page.start input t) j).Short out) :
    ∃ c c', Machine.after (Console.step nocolor fnc out ahead) (Console.start termios input t) k =
        some c ∧
      Machine.after (Console.step nocolor fnc (fun k s => ended (out k s)) ahead)
        (Console.start termios input t) k = some c' ∧
      ∃ d : Desk, d.Shown c.session ∧ d.Shown c'.session ∧
        ∀ ed, d.doing = .editing ed → c.term = c'.term := by
  have hstart := Page.shown_start htermios input ht
  have hshown : ∀ j ≤ k, ∃ c,
      Machine.after (Console.step nocolor fnc out ahead) (Console.start termios input t) j = some c ∧
        (Machine.afterSpec (Page.step fnc.called out ahead) (Page.start input t) j).Shown c :=
    fun j hj => Machine.after_simulates (fun _ _ h hgood => h.step hgood hleaves hout) hstart j
      fun i hi => hgood i (by omega)
  have hturn : ∀ j < k, ∀ p',
      (Machine.afterSpec (Page.step fnc.called out ahead) (Page.start input t) j).Twin p' →
      (Machine.afterSpec (Page.step fnc.called out ahead) (Page.start input t) (j + 1)).Twin
        (p'.step fnc.called (fun k s => ended (out k s)) ahead) := by
    intro j hj p' htwin
    obtain ⟨c, -, hc⟩ := hshown j hj.le
    exact htwin.step hc hout (hshort j hj)
  have htwin : ∀ j ≤ k,
      (Machine.afterSpec (Page.step fnc.called out ahead) (Page.start input t) j).Twin
        (Machine.afterSpec (Page.step fnc.called (fun k s => ended (out k s)) ahead)
          (Page.start input t) j) := by
    intro j hj
    induction j with
    | zero => exact Page.twin_self _
    | succ j ih => exact hturn j (by omega) _ (ih (by omega))
  obtain ⟨c, hc, hpage⟩ := hshown k le_rfl
  obtain ⟨c', hc', hpage'⟩ := Machine.after_simulates
    (fun _ _ h hgood => h.step hgood hleaves fun k s hs => (hout k s hs).ended) hstart k fun j hj =>
      (htwin j hj.le).good (hturn j hj _ (htwin j hj.le)) (by rw [Page.after_width, Page.after_width])
        (hgood j hj)
  refine ⟨c, c', hc, hc', _, hpage.desk, (htwin k le_rfl).desk ▸ hpage'.desk, fun ed hed => ?_⟩
  have hterm := (htwin k le_rfl).term
  rw [hed] at hterm
  rw [hpage.term, hpage'.term]
  exact hterm

theorem short_lastRow : ∀ j < 5, (Machine.afterSpec (Page.step echo.called echoed fun _ => 0)
    (Page.start [97, 10] lastRow) j).Short echoed := by
  decide

theorem unended_unseen_lastRow :
    ∃ c c', Machine.after (Console.step true echo echoed fun _ => 0)
        (Console.start (List.replicate 60 0) [97, 10] lastRow) 5 = some c ∧
      Machine.after (Console.step true echo (fun k s => ended (echoed k s)) fun _ => 0)
        (Console.start (List.replicate 60 0) [97, 10] lastRow) 5 = some c' ∧
      ∃ d : Desk, d.Shown c.session ∧ d.Shown c'.session ∧
        ∀ ed, d.doing = .editing ed → c.term = c'.term :=
  unended_unseen (by decide) true plain_echo printed_echoed [97, 10] ⟨rfl, rfl, by decide, by decide⟩ 5
    good_lastRow short_lastRow

end

end CS238P.Shell
