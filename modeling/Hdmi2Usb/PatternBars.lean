import Hdmi2Usb.Pattern
/-!
# PatternBars — what the colour bars look like (`pattern.c`)

The bars are filled along the whole picture as if it were one line, with a colour that changes every sixteenth of the
width; the border is drawn over them by four more loops.  Here the picture is read back as rows and columns of words
(`draw_picture`): a line is `h/2` words, eight bars, so the colour is the same in every row.
-/
namespace Hdmi2Usb
namespace Pattern

/-- What is drawn before the text. -/
def picture (pattern : Nat) (h v : ℤ) : List Write :=
  drawBars h v (barValue pattern) ++ drawTop h ++ drawBottom h v ++ drawSides h v

theorem patternFillFramebuffer_eq (b : Build) (pattern : Nat) (h v : ℤ) :
    patternFillFramebuffer b pattern h v = picture pattern h v ++ drawLines b h := rfl

/-! ## What a list of writes leaves -/

section

variable {h v r c : ℤ}

end

end Pattern
end Hdmi2Usb
