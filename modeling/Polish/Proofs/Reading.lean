import Polish.Source.Parser
import Polish.Proofs.Cursor
import Polish.Proofs.Monad

namespace Polish

namespace Parser

variable {α β : Type}

def Ensures (p : Parser α) (r : Reading) (done : α → Reading → Prop) (stop : Stop → Reading → Prop) :
    Prop :=
  match p r with
  | .ok a r' => done a r'
  | .error s r' => stop s r'

variable {r : Reading} {done : α → Reading → Prop} {stop : Stop → Reading → Prop}

theorem Ensures.mono {p : Parser α} {done' : α → Reading → Prop} {stop' : Stop → Reading → Prop}
    (h : p.Ensures r done stop) (hd : ∀ a r', done a r' → done' a r')
    (hs : ∀ s r', stop s r' → stop' s r') : p.Ensures r done' stop' := by
  unfold Ensures at h ⊢
  split at h
  · exact hd _ _ h
  · exact hs _ _ h

theorem Ensures.ok {p : Parser α} (h : p.Ensures r done stop) {a : α} {r' : Reading}
    (he : p r = .ok a r') : done a r' := by
  unfold Ensures at h
  rwa [he] at h

theorem Ensures.error {p : Parser α} (h : p.Ensures r done stop) {s : Stop} {r' : Reading}
    (he : p r = .error s r') : stop s r' := by
  unfold Ensures at h
  rwa [he] at h

@[simp] theorem ensures_pure (a : α) : (pure a : Parser α).Ensures r done stop ↔ done a r := Iff.rfl

@[simp] theorem ensures_throw (s : Stop) : (throw s : Parser α).Ensures r done stop ↔ stop s r := Iff.rfl

@[simp] theorem ensures_fail (off : Nat) (why : Malformed) :
    (fail off why : Parser α).Ensures r done stop ↔ stop (.malformed off why) r := Iff.rfl

theorem ensures_bind {p : Parser β} {f : β → Parser α} :
    (p >>= f).Ensures r done stop ↔ p.Ensures r (fun b r' => (f b).Ensures r' done stop) stop := by
  simp only [Ensures, bind, EStateM.bind]
  cases p r <;> rfl

theorem skipBlanks_eq (r : Reading) : skipBlanks r = .ok r.cursor.skipBlanks ⟨r.cursor.skipBlanks, r.report⟩ :=
  rfl

theorem token_eq (r : Reading) : token r = .ok r.cursor.token.1 ⟨r.cursor.token.2, r.report⟩ := rfl

theorem advance_eq (n : Nat) (r : Reading) : advance n r = .ok () ⟨r.cursor.advance n, r.report⟩ := rfl

theorem cursor_eq (r : Reading) : cursor r = .ok r.cursor r := rfl

@[simp] theorem ensures_skipBlanks_bind {f : Cursor → Parser α} :
    (skipBlanks >>= f).Ensures r done stop
      ↔ (f r.cursor.skipBlanks).Ensures ⟨r.cursor.skipBlanks, r.report⟩ done stop := ensures_bind

@[simp] theorem ensures_token_bind {f : Bytes → Parser α} :
    (token >>= f).Ensures r done stop
      ↔ (f r.cursor.token.1).Ensures ⟨r.cursor.token.2, r.report⟩ done stop := ensures_bind

@[simp] theorem ensures_advance_bind {n : Nat} {f : Unit → Parser α} :
    (advance n >>= f).Ensures r done stop ↔ (f ()).Ensures ⟨r.cursor.advance n, r.report⟩ done stop :=
  ensures_bind

@[simp] theorem ensures_cursor_bind {f : Cursor → Parser α} :
    (cursor >>= f).Ensures r done stop ↔ (f r.cursor).Ensures r done stop := ensures_bind

@[simp] theorem ensures_note_bind {location : Location} {problem : Problem} {f : Unit → Parser α} :
    (note location problem >>= f).Ensures r done stop
      ↔ (f ()).Ensures ⟨r.cursor, r.report.add { location, problem }⟩ done stop := ensures_bind

end Parser

end Polish
