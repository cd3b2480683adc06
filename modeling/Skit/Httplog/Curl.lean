import Mathlib.Data.List.Forall2
import Skit.Errs.Sanitize
import Skit.Lib.Shell

/-!
# Logged requests as `curl` commands

`CURL` writes the method of a request as it is and quotes everything else. A method is a token, and
tokens may have characters that mean something to a shell.
-/
namespace Skit.Httplog
open List Option

open Errs (Text text)
open Lib Shell

section Code

/-- What `CURL` reads of a request. The URL is its text, and the header is in the order in which
the map is ranged over. -/
structure Request where
  method : Text
  tls : Bool
  host : Text
  url : Text
  header : List (Text × List Text)

/-- The method curl sends without `-X`. -/
def curlMethod (body : Text) : Text := if body ≠ [] then text "POST" else text "GET"

/-- `strings.ReplaceAll` of one byte. -/
def replaceAll (v : Text) (old : UInt8) (new : Text) : Text :=
  v.flatMap fun c => if c = old then new else [c]

def singleQuoted (v : Text) : Text := text "'" ++ replaceAll v 0x27 (text "'\\''") ++ text "'"

def Request.scheme (r : Request) : Text := if r.tls then text "https" else text "http"

def Request.requestURL (r : Request) : Text := r.scheme ++ text "://" ++ r.host ++ r.url

/-- `CURL`. -/
def curl (req : Request) (reqBody : Text) : Text :=
  text "curl" ++
    (if req.method ≠ curlMethod reqBody then text " -X " ++ req.method else []) ++
    text " " ++ singleQuoted req.requestURL ++
    (if reqBody ≠ [] then text " --data-raw " ++ singleQuoted reqBody else []) ++
    req.header.flatMap fun entry => entry.2.flatMap fun val =>
      text " -H " ++ singleQuoted (entry.1 ++ text ": " ++ val)

end Code

section Spec

/-- The characters of a token. -/
def tchars : Text :=
  text ("!#$%&'*+-.^_`|~0123456789ABCDEFGHIJKLMNOPQRSTUVWXYZ" ++ "abcdefghijklmnopqrstuvwxyz")

structure Token (m : Text) : Prop where
  ne : m ≠ []
  chars : ∀ c ∈ m, c ∈ tchars

/-- The words of the command that sends the request. -/
def commandWords (req : Request) (body : Text) : List Text :=
  text "curl" :: ((if req.method ≠ curlMethod body then [text "-X", req.method] else []) ++
    [req.requestURL] ++ (if body ≠ [] then [text "--data-raw", body] else []) ++
    req.header.flatMap fun entry => entry.2.flatMap fun val =>
      [text "-H", entry.1 ++ text ": " ++ val])

/-- The shell reads the text as one command that sends the request. -/
def RunsCurl (req : Request) (body : Text) : Prop :=
  words Class.ofByte (curl req body) = some (commandWords req body)

/-- A method that means nothing to the shell. -/
def Harmless (m : Text) : Prop :=
  (∀ c ∈ m, c ∉ text "&'*$`|") ∧ ∀ c ∈ m.head?, c ∉ text "#~"

end Spec

section Quoting

theorem ofByte_eq_quote_iff (c : UInt8) : Class.ofByte c = .quote ↔ c = 0x27 := by
  have hall : ∀ n < 256, Class.ofByte (UInt8.ofNat n) = .quote ↔ UInt8.ofNat n = 0x27 := by
    decide +kernel
  have hc := hall c.toNat c.toNat_lt
  rwa [UInt8.ofNat_toNat] at hc

theorem foldlM_quote (w : Text) (d : List Text) :
    (text "'\\''").foldlM (step Class.ofByte) ⟨.single, some w, d⟩ =
      some ⟨.single, some (w ++ [0x27]), d⟩ := by
  have hbytes : text "'\\''" = [0x27, 0x5c, 0x27, 0x27] := rfl
  have hquote : Class.ofByte 0x27 = .quote := rfl
  have hbackslash : Class.ofByte 0x5c = .backslash := rfl
  simp [hbytes, step, hquote, hbackslash, State.push]

theorem foldlM_replaceAll (v w : Text) (d : List Text) :
    (replaceAll v 0x27 (text "'\\''")).foldlM (step Class.ofByte) ⟨.single, some w, d⟩ =
      some ⟨.single, some (w ++ v), d⟩ := by
  induction v generalizing w with
  | nil => simp [replaceAll]
  | cons c v ih =>
    have hfirst : (if c = 0x27 then text "'\\''" else [c]).foldlM (step Class.ofByte)
        ⟨.single, some w, d⟩ = some ⟨.single, some (w ++ [c]), d⟩ := by
      split_ifs with hc
      · rw [hc, foldlM_quote]
      · refine foldlM_single fun a ha => ?_
        rw [mem_singleton.mp ha, Ne, ofByte_eq_quote_iff]
        exact hc
    rw [replaceAll, flatMap_cons, foldlM_append, hfirst, bind_eq_bind,
      bind_some]
    simpa [replaceAll] using ih (w ++ [c])

theorem singleQuoted_word (v : Text) : Word Class.ofByte (singleQuoted v) v := by
  intro d
  have hopen : (text "'").foldlM (step Class.ofByte) ⟨.plain, none, d⟩ =
      some ⟨.single, some [], d⟩ := rfl
  have hclose : (text "'").foldlM (step Class.ofByte) ⟨.single, some v, d⟩ =
      some ⟨.plain, some v, d⟩ := rfl
  have hinside := foldlM_replaceAll v [] d
  rw [singleQuoted, foldlM_append, foldlM_append, hopen, bind_eq_bind,
    bind_some, hinside, bind_some, nil_append, hclose]

end Quoting

section Commands

variable {req : Request} {body : Text} {c : UInt8}

/-- The pieces of the command after its name. -/
def pieces (req : Request) (body : Text) : List Text :=
  (if req.method ≠ curlMethod body then [text "-X", req.method] else []) ++
    [singleQuoted req.requestURL] ++
    (if body ≠ [] then [text "--data-raw", singleQuoted body] else []) ++
    req.header.flatMap fun entry => entry.2.flatMap fun val =>
      [text "-H", singleQuoted (entry.1 ++ text ": " ++ val)]

theorem flatMap_option {o o' : Text} (ho : o' = 0x20 :: (o ++ [0x20])) (v : Text) :
    [o, v].flatMap (0x20 :: ·) = o' ++ v := by
  rw [ho, flatMap_cons, flatMap_cons, flatMap_nil, append_nil,
    cons_append, cons_append, append_assoc, singleton_append]

theorem curl_eq (req : Request) (body : Text) :
    curl req body = text "curl" ++ (pieces req body).flatMap (0x20 :: ·) := by
  have hmethod : (if req.method ≠ curlMethod body then [text "-X", req.method] else []).flatMap
      (0x20 :: ·) = if req.method ≠ curlMethod body then text " -X " ++ req.method else [] := by
    split_ifs
    · exact flatMap_option rfl req.method
    · rfl
  have hurl : [singleQuoted req.requestURL].flatMap (0x20 :: ·) =
      text " " ++ singleQuoted req.requestURL := flatMap_singleton ..
  have hbody : (if body ≠ [] then [text "--data-raw", singleQuoted body] else []).flatMap
      (0x20 :: ·) = if body ≠ [] then text " --data-raw " ++ singleQuoted body else [] := by
    split_ifs
    · exact flatMap_option rfl (singleQuoted body)
    · rfl
  have hheader : ∀ val name : Text,
      [text "-H", singleQuoted (name ++ text ": " ++ val)].flatMap (0x20 :: ·) =
        text " -H " ++ singleQuoted (name ++ text ": " ++ val) :=
    fun val name => flatMap_option rfl _
  rw [curl, pieces, flatMap_append, flatMap_append, flatMap_append, hmethod, hurl,
    hbody]
  simp only [flatMap_assoc, hheader]
  simp only [append_assoc]

theorem bare_of_mem_tchars (hc : c ∈ tchars) : Bare Class.ofByte c := by
  have hall : ∀ c ∈ tchars, Class.ofByte c ≠ .blank ∧ Class.ofByte c ≠ .newline ∧
      Class.ofByte c ≠ .backslash ∧ Class.ofByte c ≠ .doubleQuote := by decide +kernel
  obtain ⟨hblank, hnewline, hbackslash, hdouble⟩ := hall c hc
  exact ⟨hblank, hnewline, hbackslash, hdouble⟩

theorem special_bytes : text "&'*$`|" = [0x26, 0x27, 0x2a, 0x24, 0x60, 0x7c] := rfl

theorem literal_iff (hc : c ∈ tchars) : Literal Class.ofByte c ↔ c ∉ text "&'*$`|" := by
  have hall : ∀ c ∈ tchars, (Class.ofByte c = .ordinary ∨ Class.ofByte c = .hash ∨
      Class.ofByte c = .tilde) ↔ c ∉ text "&'*$`|" := by
    rw [special_bytes]
    decide +kernel
  exact hall c hc

theorem ordinary_iff (hc : c ∈ tchars) :
    Class.ofByte c = .ordinary ↔ c ∉ text "&'*$`|" ∧ c ∉ text "#~" := by
  have hstart : text "#~" = [0x23, 0x7e] := rfl
  have hall : ∀ c ∈ tchars, Class.ofByte c = .ordinary ↔
      c ∉ text "&'*$`|" ∧ c ∉ text "#~" := by
    rw [special_bytes, hstart]
    decide +kernel
  exact hall c hc

theorem inert_iff {m : Text} (hm : Token m) : Inert Class.ofByte m ↔ Harmless m := by
  obtain ⟨c, s, rfl⟩ := exists_cons_of_ne_nil hm.ne
  have hhead := ordinary_iff (hm.chars c mem_cons_self)
  have hall : (∀ a ∈ c :: s, Literal Class.ofByte a) ↔ ∀ a ∈ c :: s, a ∉ text "&'*$`|" :=
    forall₂_congr fun a ha => literal_iff (hm.chars a ha)
  constructor
  · rintro ⟨⟨a, ha, hord⟩, hlit⟩
    cases ha
    refine ⟨hall.mp hlit, fun a ha => ?_⟩
    cases ha
    exact (hhead.mp hord).2
  · rintro ⟨hlit, hfirst⟩
    exact ⟨⟨c, rfl, hhead.mpr ⟨hlit c mem_cons_self, hfirst c rfl⟩⟩, hall.mpr hlit⟩

/-- Everything but the method is read back as it was. -/
theorem pieces_words (hm : req.method = curlMethod body ∨ Inert Class.ofByte req.method) :
    List.Forall₂ (Word Class.ofByte) (pieces req body) (commandWords req body).tail := by
  have hoption : ∀ o ∈ [text "-X", text "--data-raw", text "-H"], Word Class.ofByte o o := by
    have hall : ∀ o ∈ [text "-X", text "--data-raw", text "-H"],
        (∃ c ∈ o.head?, Class.ofByte c = .ordinary) ∧ ∀ c ∈ o, Class.ofByte c = .ordinary := by
      decide +kernel
    exact fun o ho => Inert.word ⟨(hall o ho).1, fun c hc => .inl ((hall o ho).2 c hc)⟩
  have hheader : ∀ entry : Text × List Text, List.Forall₂ (Word Class.ofByte)
      (entry.2.flatMap fun val => [text "-H", singleQuoted (entry.1 ++ text ": " ++ val)])
      (entry.2.flatMap fun val => [text "-H", entry.1 ++ text ": " ++ val]) := by
    intro entry
    refine rel_flatMap (List.forall₂_eq_eq_eq ▸ rfl) ?_
    rintro val _ rfl
    exact .cons (hoption _ (by simp)) (.cons (singleQuoted_word _) .nil)
  rw [pieces, commandWords, tail_cons]
  refine rel_append (rel_append (rel_append ?_ ?_) ?_) ?_
  · split_ifs with hne
    · exact .cons (hoption _ (by simp)) (.cons (hm.resolve_left hne).word .nil)
    · exact .nil
  · exact .cons (singleQuoted_word _) .nil
  · split_ifs
    · exact .cons (hoption _ (by simp)) (.cons (singleQuoted_word body) .nil)
    · exact .nil
  · refine rel_flatMap (List.forall₂_eq_eq_eq ▸ rfl) ?_
    rintro entry _ rfl
    exact hheader entry

theorem curl_eq_method (hne : req.method ≠ curlMethod body) :
    ∃ rest, curl req body = text "curl -X " ++ (req.method ++ 0x20 :: rest) := by
  have hstart : text "curl -X " = text "curl" ++ text " -X " := rfl
  have hblank : text " " = [0x20] := rfl
  refine ⟨singleQuoted req.requestURL ++
    (if body ≠ [] then text " --data-raw " ++ singleQuoted body else []) ++
    req.header.flatMap fun entry => entry.2.flatMap fun val =>
      text " -H " ++ singleQuoted (entry.1 ++ text ": " ++ val), ?_⟩
  rw [curl, if_pos hne, hstart, hblank]
  simp

/-- The method is read back as it was only if it means nothing to the shell. -/
theorem inert_of_runsCurl (hm : Token req.method) (hne : req.method ≠ curlMethod body)
    (h : RunsCurl req body) : Inert Class.ofByte req.method := by
  obtain ⟨rest, hrest⟩ := curl_eq_method hne
  have hstart : (text "curl -X ").foldlM (step Class.ofByte) State.start =
      some ⟨.plain, none, [text "curl", text "-X"]⟩ := rfl
  have hwords : ∃ xs, commandWords req body = [text "curl", text "-X"] ++ req.method :: xs := by
    rw [commandWords, if_pos hne]
    exact ⟨_, rfl⟩
  obtain ⟨xs, hxs⟩ := hwords
  rw [RunsCurl, words, hrest, foldlM_append, hstart, bind_eq_bind, bind_some,
    hxs] at h
  exact inert_of_words hm.ne (fun c hc => bare_of_mem_tchars (hm.chars c hc)) rfl h

/-- The text that `CURL` logs runs nothing but curl, with the arguments of the request, just when
the method is the one curl sends anyway or means nothing to the shell. -/
theorem runsCurl_iff (req : Request) (body : Text) (hm : Token req.method) :
    RunsCurl req body ↔ req.method = curlMethod body ∨ Harmless req.method := by
  constructor
  · intro h
    by_cases hdefault : req.method = curlMethod body
    · exact .inl hdefault
    · exact .inr ((inert_iff hm).mp (inert_of_runsCurl hm hdefault h))
  · intro h
    have hinert := h.imp_right (inert_iff hm).mpr
    have hcurl : Word Class.ofByte (text "curl") (text "curl") := fun d => rfl
    rw [RunsCurl, curl_eq]
    exact words_line rfl hcurl (pieces_words hinert)

/-- A request with a quote in its URL and one in its body. -/
def patch : Request :=
  ⟨text "PATCH", true, text "example.com", text "/it's", [(text "Accept", [text "*/*"])]⟩

theorem patch_runsCurl : Token patch.method ∧ RunsCurl patch (text "don't $(stop)") := by
  have hm : Token patch.method := ⟨by decide, by decide +kernel⟩
  exact ⟨hm, (runsCurl_iff patch _ hm).mpr (.inr ⟨by decide +kernel, by decide +kernel⟩)⟩

/-- A request whose method is a pipeline. -/
def pipeline : Request := ⟨text "GET|reboot", false, text "example.com", text "/", []⟩

/-- The text is two commands. -/
theorem pipeline_runs :
    Token pipeline.method ∧
      curl pipeline [] = text "curl -X GET|reboot 'http://example.com/'" ∧
      ¬ RunsCurl pipeline [] := by
  have hwords : words Class.ofByte (curl pipeline []) = none := by decide +kernel
  refine ⟨⟨by decide, by decide +kernel⟩, by decide +kernel, fun h => ?_⟩
  rw [RunsCurl, hwords] at h
  cases h

end Commands

end Skit.Httplog
